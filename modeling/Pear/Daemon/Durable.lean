import Pear.Daemon.Registry
import Pear.Lib.Durable

/-!
# Registrations across crashes

The registry of a running daemon and `daemon.json` are a table in memory and its stored copy
(`PeardHost.tables`), and every step of the host is a step of these tables (`PeardHost.tables_step`),
whichever part of a save fails and wherever the process is killed. So at every moment of every run the
file can be loaded, and both hold at each directory what the last acknowledged request put there, or
what a later request did that failed or was never answered (`daemon_registrations`).
-/

namespace Pear

open Lib (Durable DurableEvent Change candidates)

/-! ## What a request changes -/

/-- The registry's key of the directory a request is about, if it is one that changes the registry. -/
def Request.key (os : OsAnswers) : Request → Option Text
  | addWatch .. | addConverge .. | addMirror .. => os.canonical.map OsPath.lossy
  | remove path => some (os.keyOf path)
  | list | status _ | shutdown => none

section
variable {s s' : Peard} {r : Request} {os : OsAnswers} {reg : Registration} {entry : EntryInfo}
  {answer : Json}

theorem OsAnswers.canonicalize_eq_ok {path p : OsPath} (h : os.canonicalize path = .ok p) :
    os.canonical = some p := by
  unfold OsAnswers.canonicalize at h
  cases hc : os.canonical with
  | none =>
    rw [hc] at h
    cases h
  | some q =>
    rw [hc] at h
    cases h
    rfl

/-- A loop is started for a directory that has none. -/
theorem Peard.start_cases {token : Option Text} (h : s.start reg token = .ok (entry, s')) :
    s.workers[reg.key]? = none ∧ entry = reg.entryInfo {} ∧
      s' = s.insert reg { thread := some (spawnWorker reg token) } := by
  unfold Peard.start at h
  split at h
  · cases h
  · rename_i hnone
    cases h
    exact ⟨by simpa using hnone, rfl, rfl⟩

/-- **What a request that changes the registry does to it.** -/
theorem Peard.perform_cases (h : s.perform r os = .ok (answer, some s')) :
    (∃ reg token, r.key os = some reg.key ∧ s.workers[reg.key]? = none ∧
      answer = (reg.entryInfo {}).toJson ∧
      s' = s.insert reg { thread := some (spawnWorker reg token) }) ∨
    ∃ key w, r.key os = some key ∧ s.workers[key]? = some w ∧
      s' = { s with workers := s.workers.erase key, loops := stopLoop s.loops w.loop } := by
  -- The additions end in `start`, whose registration is at the canonical path.
  have hadd : ∀ {x : Except DaemonError (EntryInfo × Peard)} (reg : Registration)
      (token : Option Text), x = s.start reg token → os.canonical = some reg.path →
      x.map Peard.added = .ok (answer, some s') →
      ∃ reg token, os.canonical.map OsPath.lossy = some reg.key ∧ s.workers[reg.key]? = none ∧
        answer = (reg.entryInfo {}).toJson ∧
        s' = s.insert reg { thread := some (spawnWorker reg token) } := by
    intro x reg token hx hpath h
    rw [hx] at h
    cases hstart : s.start reg token with
    | error e =>
      rw [hstart] at h
      cases h
    | ok res =>
      rw [hstart] at h
      cases h
      obtain ⟨hnone, hentry, hins⟩ := Peard.start_cases hstart
      exact ⟨reg, token, by rw [hpath]; rfl, hnone, by rw [hentry], hins⟩
  cases r with
  | addWatch path target =>
    left
    cases hc : os.canonicalize path with
    | error e =>
      rw [Peard.perform, Peard.addWatch, hc] at h
      cases h
    | ok p =>
      refine hadd (.watch p target) none ?_ (OsAnswers.canonicalize_eq_ok hc) h
      rw [Peard.addWatch, hc]
      rfl
  | addConverge path relay token workspace device team e2e name tlsCaCert =>
    left
    cases hx : s.addConverge os path relay token workspace device team e2e name tlsCaCert with
    | error e =>
      rw [Peard.perform, hx] at h
      cases h
    | ok res =>
      have hx' := hx
      unfold Peard.addConverge at hx
      obtain ⟨p, hc, hx⟩ := bind_eq_ok_iff.mp hx
      obtain ⟨-, hx⟩ := refuseIf_bind_eq_ok_iff.mp hx
      obtain ⟨-, hx⟩ := refuseIf_bind_eq_ok_iff.mp hx
      exact hadd _ _ (by rw [hx', hx]) (OsAnswers.canonicalize_eq_ok hc) h
  | addMirror path workspace relay token name tlsCaCert =>
    left
    cases hx : s.addMirror os path workspace relay token name tlsCaCert with
    | error e =>
      rw [Peard.perform, hx] at h
      cases h
    | ok res =>
      have hx' := hx
      unfold Peard.addMirror at hx
      obtain ⟨p, hc, hx⟩ := bind_eq_ok_iff.mp hx
      obtain ⟨-, hx⟩ := refuseIf_bind_eq_ok_iff.mp hx
      obtain ⟨-, hx⟩ := refuseIf_bind_eq_ok_iff.mp hx
      exact hadd _ _ (by rw [hx', hx]) (OsAnswers.canonicalize_eq_ok hc) h
  | remove path =>
    right
    cases hw : s.workers[os.keyOf path]? with
    | none =>
      rw [Peard.perform, Peard.remove, hw] at h
      cases h
    | some w =>
      rw [Peard.perform, Peard.remove, hw] at h
      cases h
      exact ⟨_, w, rfl, hw, rfl⟩
  | list | status | shutdown => cases h

end

/-! ## The tables -/

/-- What the registry has at a directory, with its paths as text. -/
def Peard.registered (s : Peard) (k : Text) : Option Registration :=
  s.workers[k]?.map (·.registration.recorded)

/-- What `daemon.json` has at a directory: a restart takes the first of its entries. -/
def DaemonHome.registered (h : DaemonHome) (k : Text) : Option Registration :=
  ((h.load.getD []).find? (·.key = k)).map Registration.recorded

/-- Every registration is at its own key. -/
def Peard.Keyed (s : Peard) : Prop :=
  ∀ (k : Text) (w : Worker), s.workers[k]? = some w → w.registration.key = k

section
variable {s s' : Peard} {k : Text} {h : DaemonHome}

theorem Peard.registered_insert (s : Peard) (reg : Registration) (loop : Loop) :
    (s.insert reg loop).registered = Function.update s.registered reg.key (some reg.recorded) := by
  funext k
  unfold Peard.registered Peard.insert
  rw [Lib.getElem?_insert_eq]
  by_cases hk : reg.key = k
  · subst hk
    rw [if_pos rfl, Function.update_self]
    rfl
  · rw [if_neg hk, Function.update_of_ne (Ne.symm hk)]

theorem Peard.keyed_insert (hs : s.Keyed) (reg : Registration) (loop : Loop) :
    (s.insert reg loop).Keyed := by
  intro k w hw
  obtain ⟨rfl, rfl⟩ | ⟨-, hw⟩ := Lib.getElem?_insert_cases hw
  · rfl
  · exact hs k w hw

/-- **What a request changes is the registration at its key.** -/
theorem Peard.registered_perform {r : Request} {os : OsAnswers} {answer : Json} (hs : s.Keyed)
    (h : s.perform r os = .ok (answer, some s')) :
    s'.Keyed ∧ ∃ k, r.key os = some k ∧ s'.registered = Function.update s.registered k (s'.registered k) := by
  obtain ⟨reg, token, hkey, -, -, rfl⟩ | ⟨k, w, hkey, -, rfl⟩ := Peard.perform_cases h
  · refine ⟨Peard.keyed_insert hs _ _, reg.key, hkey, ?_⟩
    rw [Peard.registered_insert, Function.update_self]
  · refine ⟨fun q w' hw' => hs q w' (Lib.getElem?_of_erase hw').2, k, hkey, ?_⟩
    funext q
    by_cases hq : q = k
    · subst hq
      rw [Function.update_self]
    · rw [Function.update_of_ne hq]
      unfold Peard.registered
      dsimp only
      rw [Lib.getElem?_erase_eq, if_neg (Ne.symm hq)]

/-- A saved registry is loaded as it is, with its paths as text. -/
theorem DaemonHome.load_saved (rs : List Registration) (tmp : StateFile) :
    DaemonHome.load ⟨.document (stateJson rs), tmp⟩ = some (rs.map Registration.recorded) := by
  dsimp only [DaemonHome.load]
  rw [registrationsOfJson_stateJson]
  rfl

theorem Registration.recorded_recorded (r : Registration) : r.recorded.recorded = r.recorded :=
  Registration.recorded_of_ofJson r.ofJson_toJson

/-- **A saved registry has at each directory what the registry has.** -/
theorem DaemonHome.registered_saved (hs : s.Keyed) (tmp : StateFile) :
    DaemonHome.registered ⟨.document (stateJson s.registrations), tmp⟩ = s.registered := by
  funext k
  unfold DaemonHome.registered Peard.registered Peard.registrations
  rw [DaemonHome.load_saved, Option.getD_some, List.map_map, List.find?_map, Option.map_map]
  have hfind : s.workers.toList.find? ((fun r : Registration => decide (r.key = k)) ∘
      Registration.recorded ∘ fun e => e.2.registration) =
        s.workers.toList.find? fun e => decide (e.1 = k) := by
    refine List.find?_congr fun e he => ?_
    have hw := Std.ExtTreeMap.mem_toList_iff_getElem?_eq_some.mp he
    simp only [Function.comp_apply, Registration.key_recorded, hs e.1 e.2 hw]
  rw [hfind, ← Lib.find?_toList, Option.map_map]
  congr 1
  funext e
  exact Registration.recorded_recorded _

/-- **A restart registers what the file has**, the first of the entries of a directory. -/
theorem Peard.registered_restore (token : Option Text) (rs : List Registration) :
    (Peard.restore token rs).Keyed ∧ ∀ k, (Peard.restore token rs).registered k =
      (rs.find? (·.key = k)).map Registration.recorded := by
  have hfold : ∀ (rs : List Registration) (s : Peard), s.Keyed →
      (rs.foldl (Peard.restoreOne token) s).Keyed ∧
        ∀ k, (rs.foldl (Peard.restoreOne token) s).registered k =
          (s.registered k).or ((rs.find? (·.key = k)).map Registration.recorded) := by
    intro rs
    induction rs with
    | nil => exact fun s hs => ⟨hs, fun k => (Option.or_none).symm⟩
    | cons r rs ih =>
      intro s hs
      rw [List.foldl_cons, Peard.restoreOne]
      by_cases hin : s.workers[r.key]?.isSome = true
      · rw [if_pos hin]
        refine ⟨(ih s hs).1, fun k => ?_⟩
        rw [(ih s hs).2 k]
        by_cases hk : r.key = k
        · subst hk
          obtain ⟨w, hw⟩ := Option.isSome_iff_exists.mp hin
          simp only [Peard.registered, hw, Option.map_some, Option.some_or]
        · rw [List.find?_cons_of_neg (by simpa using hk)]
      · rw [if_neg hin]
        have hins := Peard.keyed_insert hs r (Peard.resume token r)
        refine ⟨(ih _ hins).1, fun k => ?_⟩
        rw [(ih _ hins).2 k, Peard.registered_insert]
        by_cases hk : r.key = k
        · subst hk
          have hnone : s.registered r.key = none := by
            simpa [Peard.registered] using hin
          rw [Function.update_self, hnone, List.find?_cons_of_pos (by simp)]
          rfl
        · rw [Function.update_of_ne (Ne.symm hk), List.find?_cons_of_neg (by simpa using hk)]
  have h := hfold rs {} fun k w hw => by
    rw [Std.ExtTreeMap.getElem?_empty] at hw
    cases hw
  refine ⟨h.1, fun k => ?_⟩
  rw [Peard.restore, h.2 k]
  rfl

end

/-! ## The host as tables -/

/-- Memory and disk of a host. -/
def PeardHost.tables (h : PeardHost) : Durable Text Registration where
  memory := h.peard.map Peard.registered
  disk := h.home.registered

section
variable (debug : Text → Text)

/-- The key and the registry that a connection changes, if it changes the registry. -/
def Peard.changed (s : Peard) (line : Except Text Json) (os : OsAnswers) : Option (Text × Peard) :=
  match parseLine debug line with
  | .error _ => none
  | .ok r =>
    match s.perform r os with
    | .ok (_, some s') => (r.key os).map fun k => (k, s')
    | _ => none

/-- What a step of the host is to its tables. A change is acknowledged when the client takes a response
that is no error. -/
def PeardHost.events (h : PeardHost) (e : HostEvent) : List (DurableEvent Text Registration) :=
  match h.peard, e with
  | none, .start _ => [.recover]
  | some s, .serve line os how delivered =>
    match s.changed debug line os with
    | none => []
    | some (k, s') => [.change {
        key := k
        value := s'.registered k
        stored := how = .saved
        acked := delivered && (s.serve debug line os how delivered h.home).1.error.isNone
        alive := true }]
  | some s, .dieServing line os point =>
    match s.changed debug line os with
    | none => [.crash]
    | some (k, s') => [.change {
        key := k
        value := s'.registered k
        stored := point = .renamed
        acked := false
        alive := false }]
  | some _, .die | some _, .exit _ => [.crash]
  | _, _ => []

/-- What the steps of a run are to the tables. -/
def PeardHost.history : PeardHost → List HostEvent → List (DurableEvent Text Registration)
  | _, [] => []
  | h, e :: es =>
    match h.step debug e with
    | some h' => h.events debug e ++ h'.history es
    | none => []

end

/-- The state can be loaded, and every registration is at its own key. -/
structure PeardHost.Sound (h : PeardHost) : Prop where
  loads : ∃ rs, h.home.load = some rs
  keyed : ∀ s, h.peard = some s → s.Keyed

section
variable {debug : Text → Text} {h h' : PeardHost} {s s' : Peard} {line : Except Text Json}
  {os : OsAnswers} {how : SaveEnd} {delivered : Bool} {home : DaemonHome} {k : Text}

/-- A changed registry differs at its key. -/
theorem Peard.registered_changed (hs : s.Keyed) (hc : s.changed debug line os = some (k, s')) :
    s'.Keyed ∧ s'.registered = Function.update s.registered k (s'.registered k) := by
  unfold Peard.changed at hc
  split at hc
  · cases hc
  split at hc
  · rename_i hp
    obtain ⟨hkeyed, k', hk', hupd⟩ := Peard.registered_perform hs hp
    rw [hk'] at hc
    cases hc
    exact ⟨hkeyed, hupd⟩
  · cases hc

variable (how delivered home) in
/-- A connection that changes the registry saves it, and answers an error when that fails. -/
theorem Peard.serve_of_changed (hc : s.changed debug line os = some (k, s')) :
    (s.serve debug line os how delivered home).2 =
        (s', (saveState s'.registrations how home).2) ∧
      ((s.serve debug line os how delivered home).1.error = none → how = .saved) := by
  unfold Peard.changed at hc
  unfold Peard.serve
  cases hr : parseLine debug line with
  | error e =>
    rw [hr] at hc
    cases hc
  | ok r =>
    rw [hr] at hc
    dsimp only at hc
    split at hc
    · rename_i answer s₁ hp
      obtain ⟨k', -, hk'⟩ := Option.map_eq_some_iff.mp hc
      cases hk'
      cases r with
      | shutdown => cases hp
      | _ =>
        dsimp only
        rw [Peard.dispatch, hp]
        cases how with
        | saved => exact ⟨rfl, fun _ => rfl⟩
        | failed point reason => cases point <;> exact ⟨rfl, fun herr => by cases herr⟩
    · cases hc

variable (how delivered home) in
/-- A connection that does not change the registry leaves the registrations and the files. -/
theorem Peard.serve_of_unchanged (hc : s.changed debug line os = none) :
    (s.serve debug line os how delivered home).2.1.workers = s.workers ∧
      (s.serve debug line os how delivered home).2.2 = home := by
  unfold Peard.changed at hc
  unfold Peard.serve
  cases hr : parseLine debug line with
  | error e => exact ⟨rfl, rfl⟩
  | ok r =>
    rw [hr] at hc
    dsimp only at hc
    have hdispatch : (s.dispatch r os how home).2 = (s, home) := by
      unfold Peard.dispatch
      split
      · rfl
      · rfl
      · rename_i answer s' hp
        rw [hp] at hc
        obtain ⟨reg, token, hkey, -⟩ | ⟨k, w, hkey, -⟩ := Peard.perform_cases hp <;>
          · rw [hkey] at hc
            cases hc
    cases r with
    | shutdown => cases delivered <;> exact ⟨rfl, rfl⟩
    | _ =>
      dsimp only
      rw [hdispatch]
      exact ⟨rfl, rfl⟩

/-- A process killed in a connection that changes the registry has saved it in part or whole. -/
theorem Peard.killed_of_changed {point : SavePoint} (hc : s.changed debug line os = some (k, s')) :
    s.killed debug line os point home = point.leaves s'.registrations home := by
  unfold Peard.changed at hc
  unfold Peard.killed
  cases hr : parseLine debug line with
  | error e =>
    rw [hr] at hc
    cases hc
  | ok r =>
    rw [hr] at hc
    dsimp only at hc ⊢
    obtain ⟨j, hp⟩ : ∃ j, s.perform r os = .ok (j, some s') := by
      split at hc
      · rename_i hp
        obtain ⟨k', -, hk'⟩ := Option.map_eq_some_iff.mp hc
        cases hk'
        exact ⟨_, hp⟩
      · cases hc
    rw [hp]

theorem Peard.killed_of_unchanged {point : SavePoint} (hc : s.changed debug line os = none) :
    s.killed debug line os point home = home := by
  unfold Peard.changed at hc
  unfold Peard.killed
  cases hr : parseLine debug line with
  | error e => rfl
  | ok r =>
    rw [hr] at hc
    dsimp only at hc ⊢
    split
    · rename_i hp
      rw [hp] at hc
      obtain ⟨reg, token, hkey, -⟩ | ⟨k, w, hkey, -⟩ := Peard.perform_cases hp <;>
        · rw [hkey] at hc
          cases hc
    · rfl

/-- **Whatever becomes of a save, the file is the old one or the new one.** -/
theorem SavePoint.leaves_cases (hs : s.Keyed) (point : SavePoint) (hload : ∃ rs, home.load = some rs) :
    (∃ rs, (point.leaves s.registrations home).load = some rs) ∧
      (point.leaves s.registrations home).registered =
        if point = .renamed then s.registered else home.registered := by
  cases point with
  | renamed => exact ⟨⟨_, DaemonHome.load_saved _ _⟩, by rw [if_pos rfl]; exact DaemonHome.registered_saved hs _⟩
  | _ => exact ⟨hload, rfl⟩

theorem saveState_cases (how : SaveEnd) (hs : s.Keyed) (hload : ∃ rs, home.load = some rs) :
    (∃ rs, (saveState s.registrations how home).2.load = some rs) ∧
      (saveState s.registrations how home).2.registered =
        if how = .saved then s.registered else home.registered := by
  cases how with
  | saved => exact SavePoint.leaves_cases hs .renamed hload
  | failed point reason => cases point <;> exact ⟨hload, rfl⟩

/-- **Every step of the host is a step of its tables.** -/
theorem PeardHost.tables_step {e : HostEvent} (hs : h.Sound) (he : h.step debug e = some h') :
    h'.Sound ∧ h.tables.replay (h.events debug e) = some h'.tables := by
  obtain ⟨peard, home⟩ := h
  obtain ⟨hload, hkeyed⟩ := hs
  dsimp only at hload hkeyed
  cases peard with
  | none =>
    cases e with
    | start pearToken =>
      obtain ⟨rs, hrs⟩ := hload
      unfold PeardHost.step at he
      dsimp only at he
      rw [hrs] at he
      obtain rfl := Option.some.inj he
      have hrest := Peard.registered_restore (envToken pearToken) rs
      refine ⟨⟨⟨rs, hrs⟩, fun s hs => by cases hs; exact hrest.1⟩, ?_⟩
      have hmem : (Peard.restore (envToken pearToken) rs).registered = home.registered := by
        funext k
        rw [hrest.2 k, DaemonHome.registered, hrs]
        rfl
      simp only [PeardHost.events, Durable.replay, Durable.step, PeardHost.tables, Option.map_none,
        Option.map_some, Option.bind_some, hmem]
    | _ => cases he
  | some s =>
    have hk := hkeyed s rfl
    cases e with
    | start pearToken => cases he
    | serve line os how delivered =>
      unfold PeardHost.step at he
      dsimp only at he
      split at he
      · cases he
      obtain rfl := Option.some.inj he
      cases hc : s.changed debug line os with
      | none =>
        obtain ⟨hworkers, hhome⟩ := Peard.serve_of_unchanged how delivered home hc
        have hreg : (s.serve debug line os how delivered home).2.1.registered = s.registered := by
          funext k
          rw [Peard.registered, hworkers]
          rfl
        refine ⟨⟨by rw [hhome]; exact hload, fun s₁ hs₁ => ?_⟩, ?_⟩
        · obtain rfl := Option.some.inj hs₁
          intro k w hw
          rw [hworkers] at hw
          exact hk k w hw
        · simp only [PeardHost.events, hc, Durable.replay, PeardHost.tables, Option.map_some, hreg,
            hhome]
      | some res =>
        obtain ⟨k, s'⟩ := res
        obtain ⟨hserve, hacked⟩ := Peard.serve_of_changed how delivered home hc
        obtain ⟨hk', hupd⟩ := Peard.registered_changed hk hc
        obtain ⟨hload', hreg⟩ := saveState_cases how hk' hload
        refine ⟨⟨by rw [hserve]; exact hload', fun s₁ hs₁ => ?_⟩, ?_⟩
        · rw [hserve] at hs₁
          obtain rfl := Option.some.inj hs₁
          exact hk'
        · have hok : (delivered && (s.serve debug line os how delivered home).1.error.isNone &&
              !decide (how = .saved)) = false := by
            by_cases hsaved : how = .saved
            · simp [hsaved]
            · have herr := mt hacked hsaved
              simp [Option.isNone_iff_eq_none, herr]
          simp only [PeardHost.events, hc, Durable.replay, Durable.step, hok, PeardHost.tables,
            Option.map_some, Option.bind_some, hserve, hreg, ← hupd, if_true, decide_eq_true_eq,
            Bool.false_eq_true, if_false]
    | dieServing line os point =>
      unfold PeardHost.step at he
      dsimp only at he
      split at he
      · cases he
      obtain rfl := Option.some.inj he
      cases hc : s.changed debug line os with
      | none =>
        rw [Peard.killed_of_unchanged hc]
        refine ⟨⟨hload, fun s₁ hs₁ => by cases hs₁⟩, ?_⟩
        simp only [PeardHost.events, hc, Durable.replay, Durable.step, PeardHost.tables,
          Option.map_some, Option.map_none, Option.bind_some]
      | some res =>
        obtain ⟨k, s'⟩ := res
        rw [Peard.killed_of_changed hc]
        obtain ⟨hk', hupd⟩ := Peard.registered_changed hk hc
        obtain ⟨hload', hreg⟩ := SavePoint.leaves_cases hk' point hload
        refine ⟨⟨hload', fun s₁ hs₁ => by cases hs₁⟩, ?_⟩
        simp only [PeardHost.events, hc, Durable.replay, Durable.step, PeardHost.tables,
          Option.map_some, Option.map_none, Option.bind_some, hreg, ← hupd, Bool.false_and,
          Bool.false_eq_true, if_false, decide_eq_true_eq]
    | die =>
      obtain rfl := Option.some.inj he
      exact ⟨⟨hload, fun s₁ hs₁ => by cases hs₁⟩, rfl⟩
    | tick i t =>
      -- A loop has no part in the registrations.
      unfold PeardHost.step at he
      dsimp only at he
      split at he
      · cases he
      split at he
      · cases he
      obtain rfl := Option.some.inj he
      exact ⟨⟨hload, fun s₁ hs₁ => by obtain rfl := Option.some.inj hs₁; exact hk⟩, rfl⟩
    | exit deadline =>
      unfold PeardHost.step at he
      dsimp only at he
      split at he
      · obtain rfl := Option.some.inj he
        exact ⟨⟨hload, fun s₁ hs₁ => by cases hs₁⟩, rfl⟩
      · cases he

/-- **A run of the host is a run of its tables.** -/
theorem PeardHost.tables_replay : ∀ {es : List HostEvent} {h h' : PeardHost}, h.Sound →
    Lib.replay (PeardHost.step debug) h es = some h' →
      h'.Sound ∧ h.tables.replay (h.history debug es) = some h'.tables
  | [], h, h', hs, hrun => by
    cases hrun
    exact ⟨hs, rfl⟩
  | e :: es, h, h', hs, hrun => by
    obtain ⟨h₁, hstep, hrest⟩ := Option.bind_eq_some_iff.mp hrun
    obtain ⟨hs₁, htables⟩ := PeardHost.tables_step hs hstep
    obtain ⟨hs', htables'⟩ := PeardHost.tables_replay hs₁ hrest
    refine ⟨hs', ?_⟩
    rw [PeardHost.history, hstep, Durable.replay_append, htables]
    exact htables'

/-- **What the daemon knows after crashes.** In every run from a start, whichever saves fail and wherever
the process is killed, `daemon.json` can be loaded, and it and the registry hold at each directory what
the last acknowledged request of that directory made of it, or what a later request that failed or was
not answered made of it. So they hold what an acknowledged request made as long as no other request
changes the registration of its directory. -/
theorem daemon_registrations {es : List HostEvent} {rs : List Registration} (hdown : h.peard = none)
    (hload : h.home.load = some rs) (hrun : Lib.replay (PeardHost.step debug) h es = some h') :
    (∃ rs', h'.home.load = some rs') ∧
      (∀ k, h'.home.registered k ∈ candidates k [h.home.registered k] (h.history debug es) ∧
        ∀ s, h'.peard = some s →
          s.registered k ∈ candidates k [h.home.registered k] (h.history debug es)) ∧
      ∀ before c after, h.history debug es = before ++ .change c :: after → c.acked = true →
        (∀ c' : Change Text Registration, .change c' ∈ after → c'.key ≠ c.key) →
          h'.home.registered c.key = c.value ∧
            ∀ s, h'.peard = some s → s.registered c.key = c.value := by
  have hsound : h.Sound := ⟨⟨rs, hload⟩, fun s hs => by rw [hdown] at hs; cases hs⟩
  obtain ⟨hs', htables⟩ := PeardHost.tables_replay hsound hrun
  have hwithin : h.tables.Within fun k => [h.home.registered k] :=
    ⟨fun k => List.mem_singleton_self _, fun m hm => by
      rw [PeardHost.tables, hdown] at hm
      cases hm⟩
  have hend := hwithin.replay htables
  have hmemory : ∀ s, h'.peard = some s → h'.tables.memory = some s.registered := fun s hs => by
    rw [PeardHost.tables, hs]
    rfl
  refine ⟨hs'.loads, fun k => ⟨hend.disk k, fun s hs => hend.memory _ (hmemory s hs) k⟩, ?_⟩
  intro before c after hhistory hacked hlast
  have hone : Lib.candidates c.key [h.home.registered c.key] (before ++ .change c :: after) =
      [c.value] := Lib.candidates_of_acked rfl hacked hlast
  rw [← hhistory] at hone
  have hdisk := hend.disk c.key
  rw [hone] at hdisk
  refine ⟨List.mem_singleton.mp hdisk, fun s hs => ?_⟩
  have hmem := hend.memory _ (hmemory s hs) c.key
  rw [hone] at hmem
  exact List.mem_singleton.mp hmem

end

/-! ## A run -/

/-- A directory, and what the system answers about it. -/
def watchedPath : OsPath := .ofText "/w".toList

def watchedOs : OsAnswers where
  canonical := some watchedPath
  absolute := none
  reason := []

/-- The line that adds a watch of it. -/
def watchLine : Except Text Json := .ok (Request.addWatch watchedPath (.ofText "/t".toList)).toJson

/-- A watch is added, and the daemon is killed and started again. -/
theorem daemon_registrations_watch : ∃ h', Lib.replay (PeardHost.step id) {}
      [.start none, .serve watchLine watchedOs .saved true, .die, .start none] = some h' ∧
    h'.home.registered "/w".toList = some (.watch watchedPath (.ofText "/t".toList)) := by
  obtain ⟨h', hrun⟩ : ∃ h', Lib.replay (PeardHost.step id) {}
      [.start none, .serve watchLine watchedOs .saved true, .die, .start none] = some h' :=
    Option.isSome_iff_exists.mp (by decide +kernel)
  refine ⟨h', hrun, ?_⟩
  have hload : ({} : PeardHost).home.load = some [] := rfl
  have h := (daemon_registrations rfl hload hrun).2.2 [.recover]
    { key := "/w".toList
      value := some (.watch watchedPath (.ofText "/t".toList))
      stored := true
      acked := true
      alive := true } [.crash, .recover] (by decide +kernel) rfl (fun c' hc => by simp at hc)
  exact h.1

end Pear
