import Pear.Daemon.Durable

/-!
# Tokens stay in memory

The bearer tokens of `add_*` requests and of `PEAR_TOKEN` go to the threads that use them and nowhere
else. Two hosts that differ only in tokens, driven by requests that differ only in tokens, give the same
responses and write the same files in every run, whatever fails (`daemon_tokens_secret`). Every step
commutes with forgetting the tokens (`PeardHost.step_forget`); only whether a token is empty matters.
-/

namespace Pear

/-! ## Forgetting -/

/-- A token with its text forgotten. -/
def forgetToken (token : Text) : Text := if token = [] then [] else ['*']

/-- A request without its token. -/
def Request.forget : Request → Request
  | addConverge path relay token workspace device team e2e name tlsCaCert =>
    addConverge path relay (forgetToken token) workspace device team e2e name tlsCaCert
  | addMirror path workspace relay token name tlsCaCert =>
    addMirror path workspace relay (forgetToken token) name tlsCaCert
  | r => r

/-- A loop without the token of its thread. -/
def Loop.forget (l : Loop) : Loop :=
  { l with thread := l.thread.map fun t => { t with token := none } }

/-- The process without its tokens. -/
def Peard.forget (s : Peard) : Peard := { s with loops := s.loops.map Loop.forget }

/-- The host without the tokens in memory. -/
def PeardHost.forget (h : PeardHost) : PeardHost := { h with peard := h.peard.map Peard.forget }

/-- Two JSON values that differ at most in the text of a token. -/
structure Json.Alike (v v' : Json) : Prop where
  others : ∀ key, key ≠ "token".toList → v.get key = v'.get key
  token : v.get "token".toList = v'.get "token".toList ∨ ∃ t t' : Text, t ≠ [] ∧ t' ≠ [] ∧
    v.get "token".toList = some (.str t) ∧ v'.get "token".toList = some (.str t')

/-- Two lines that differ at most in the text of a token. -/
inductive LineAlike : Except Text Json → Except Text Json → Prop
  | error (reason : Text) : LineAlike (.error reason) (.error reason)
  | ok {v v' : Json} (h : v.Alike v') : LineAlike (.ok v) (.ok v')

/-- Two events that differ at most in the text of a token. -/
inductive HostEvent.Alike : HostEvent → HostEvent → Prop
  | start {t t' : Option Text} (h : (envToken t).isSome = (envToken t').isSome) :
    Alike (.start t) (.start t')
  | serve {line line' : Except Text Json} (h : LineAlike line line') (os : OsAnswers)
    (how : SaveEnd) (delivered : Bool) :
    Alike (.serve line os how delivered) (.serve line' os how delivered)
  | dieServing {line line' : Except Text Json} (h : LineAlike line line') (os : OsAnswers)
    (point : SavePoint) : Alike (.dieServing line os point) (.dieServing line' os point)
  | die : Alike .die .die
  | tick (i : Nat) (t : LoopTick) : Alike (.tick i t) (.tick i t)
  | exit (deadline : Bool) : Alike (.exit deadline) (.exit deadline)

/-! ## Requests -/

section
variable {v v' : Json}

theorem Json.Alike.optStr_eq (h : v.Alike v') {key : Text} (hkey : key ≠ "token".toList) :
    optStr v key = optStr v' key := by
  unfold optStr
  rw [h.others key hkey]

theorem Json.Alike.reqStr_eq (h : v.Alike v') {key : Text} (hkey : key ≠ "token".toList) :
    reqStr v key = reqStr v' key := by
  unfold reqStr
  rw [h.optStr_eq hkey]

theorem Json.Alike.reqPath_eq (h : v.Alike v') {key : Text} (hkey : key ≠ "token".toList) :
    reqPath v key = reqPath v' key := by
  unfold reqPath
  rw [h.reqStr_eq hkey]

theorem Json.Alike.optPath_eq (h : v.Alike v') {key : Text} (hkey : key ≠ "token".toList) :
    optPath v key = optPath v' key := by
  unfold optPath
  rw [h.optStr_eq hkey]

theorem Json.Alike.optBool_eq (h : v.Alike v') {key : Text} (hkey : key ≠ "token".toList) :
    optBool v key = optBool v' key := by
  unfold optBool
  rw [h.others key hkey]

/-- The token is read alike: with the same error, or both empty, or neither. -/
theorem Json.Alike.token_eq (h : v.Alike v') :
    (reqStr v "token".toList).map forgetToken = (reqStr v' "token".toList).map forgetToken := by
  obtain heq | ⟨t, t', ht, ht', hv, hv'⟩ := h.token
  · unfold reqStr optStr
    rw [heq]
  · rw [reqStr_str hv, reqStr_str hv']
    simp only [Except.map, forgetToken, if_neg ht, if_neg ht']

/-- **Alike values are the same request, but for the token.** -/
theorem Json.Alike.ofJson_eq (h : v.Alike v') :
    (Request.ofJson v).map Request.forget = (Request.ofJson v').map Request.forget := by
  unfold Request.ofJson
  rw [h.optStr_eq (by decide : "type".toList ≠ "token".toList),
    h.reqPath_eq (by decide : "path".toList ≠ "token".toList),
    h.reqPath_eq (by decide : "target".toList ≠ "token".toList),
    h.reqStr_eq (by decide : "relay".toList ≠ "token".toList),
    h.reqStr_eq (by decide : "workspace".toList ≠ "token".toList),
    h.optStr_eq (by decide : "workspace".toList ≠ "token".toList),
    h.optStr_eq (by decide : "device".toList ≠ "token".toList),
    h.optStr_eq (by decide : "team".toList ≠ "token".toList),
    h.optBool_eq (by decide : "e2e".toList ≠ "token".toList),
    h.optStr_eq (by decide : "name".toList ≠ "token".toList),
    h.optPath_eq (by decide : "tls_ca_cert".toList ≠ "token".toList),
    h.optPath_eq (by decide : "path".toList ≠ "token".toList)]
  have htoken := h.token_eq
  cases ht : reqStr v "token".toList with
  | error e =>
    cases ht' : reqStr v' "token".toList with
    | error e' =>
      rw [ht, ht'] at htoken
      cases htoken
      rfl
    | ok t' =>
      rw [ht, ht'] at htoken
      cases htoken
  | ok t =>
    cases ht' : reqStr v' "token".toList with
    | error e' =>
      rw [ht, ht'] at htoken
      cases htoken
    | ok t' =>
      rw [ht, ht'] at htoken
      have hforget : forgetToken t = forgetToken t' := Except.ok.inj htoken
      -- Up to the token the two sides read the same fields.
      cases optStr v' "type".toList with
      | error e => rfl
      | ok tag =>
        cases tag with
        | none => rfl
        | some tag =>
          simp only [bind, Except.bind]
          split
          · rfl
          split
          · cases reqPath v' "path".toList with
            | error e => rfl
            | ok path =>
              cases reqStr v' "relay".toList with
              | error e => rfl
              | ok relay =>
                cases optStr v' "workspace".toList <;> try rfl
                cases optStr v' "device".toList <;> try rfl
                cases optStr v' "team".toList <;> try rfl
                cases optBool v' "e2e".toList <;> try rfl
                cases optStr v' "name".toList <;> try rfl
                cases optPath v' "tls_ca_cert".toList <;> try rfl
                simp only [Except.map, pure, Except.pure, Request.forget, hforget]
          split
          · cases reqPath v' "path".toList with
            | error e => rfl
            | ok path =>
              cases reqStr v' "workspace".toList <;> try rfl
              cases reqStr v' "relay".toList <;> try rfl
              cases optStr v' "name".toList <;> try rfl
              cases optPath v' "tls_ca_cert".toList <;> try rfl
              simp only [Except.map, pure, Except.pure, Request.forget, hforget]
          · rfl

end

/-! ## The registry -/

section
variable {s s' : Peard} {reg : Registration} {os : OsAnswers}

@[simp] theorem forgetToken_eq_nil_iff {token : Text} : forgetToken token = [] ↔ token = [] := by
  unfold forgetToken
  split <;> simp [*]

@[simp] theorem Loop.forget_forget (l : Loop) : l.forget.forget = l.forget := by
  cases l with
  | mk control thread => cases thread <;> rfl

@[simp] theorem Peard.forget_forget (s : Peard) : s.forget.forget = s.forget := by
  simp [Peard.forget, Function.comp_def]

/-- The registry's view of a loop has no token. -/
theorem Peard.control_forget (s : Peard) (w : Worker) : s.forget.control w = s.control w := by
  unfold Peard.control Peard.forget
  dsimp only
  rw [List.getElem?_map]
  cases s.loops[w.loop]? <;> rfl

theorem Peard.entryInfo_forget (s : Peard) (w : Worker) : s.forget.entryInfo w = s.entryInfo w := by
  rw [Peard.entryInfo, Peard.entryInfo, Peard.control_forget]

theorem Peard.entries_forget (s : Peard) (key : Option Text) :
    s.forget.entries key = s.entries key := by
  unfold Peard.entries
  simp only [Peard.entryInfo_forget]
  rfl

theorem Peard.drained_forget (s : Peard) : s.forget.drained = s.drained := by
  unfold Peard.drained
  simp only [Peard.control_forget]
  rfl

theorem Peard.insert_forget (s : Peard) (reg : Registration) (loop : Loop) :
    (s.insert reg loop).forget = s.forget.insert reg loop.forget := by
  simp [Peard.insert, Peard.forget]

theorem Peard.stopLoop_forget (loops : List Loop) (i : Nat) :
    (stopLoop loops i).map Loop.forget = stopLoop (loops.map Loop.forget) i := by
  refine List.ext_getElem? fun j => ?_
  simp only [stopLoop, List.getElem?_map, List.getElem?_modify]
  cases loops[j]? with
  | none => rfl
  | some l => by_cases hij : i = j <;> simp [hij, Loop.forget]

/-- The two results of an addition, without tokens. -/
def forgetStarted (x : Except DaemonError (EntryInfo × Peard)) : Except DaemonError (EntryInfo × Peard) :=
  x.map fun res => (res.1, res.2.forget)

/-- What a request comes to, without tokens. -/
def forgetPerformed (x : Except DaemonError (Json × Option Peard)) :
    Except DaemonError (Json × Option Peard) :=
  x.map fun res => (res.1, res.2.map Peard.forget)

/-- A loop is started with any token alike. -/
theorem Peard.start_forget (s : Peard) (reg : Registration) (token token' : Option Text) :
    forgetStarted (s.start reg token) = forgetStarted (s.forget.start reg token') := by
  unfold Peard.start
  by_cases hin : s.workers[reg.key]?.isSome = true
  · rw [if_pos hin, if_pos (show s.forget.workers[reg.key]?.isSome = true from hin)]
  · rw [if_neg hin, if_neg (show ¬ s.forget.workers[reg.key]?.isSome = true from hin)]
    simp only [forgetStarted, Except.map, Peard.insert_forget, Peard.forget_forget]
    rfl

theorem forgetPerformed_added (x : Except DaemonError (EntryInfo × Peard)) :
    forgetPerformed (x.map Peard.added) = (forgetStarted x).map Peard.added := by
  cases x <;> rfl

/-- **What a request comes to does not depend on tokens.** -/
theorem Peard.perform_forget (s : Peard) (r : Request) (os : OsAnswers) :
    forgetPerformed (s.perform r os) = forgetPerformed (s.forget.perform r.forget os) := by
  cases r with
  | addWatch path target =>
    simp only [Request.forget, Peard.perform, forgetPerformed_added]
    congr 1
    unfold Peard.addWatch
    cases os.canonicalize path with
    | error e => simp only [forgetStarted, Except.map, bind, Except.bind]
    | ok p =>
      simp only [bind, Except.bind]
      exact Peard.start_forget s _ _ _
  | addConverge path relay token workspace device team e2e name tlsCaCert =>
    simp only [Request.forget, Peard.perform, forgetPerformed_added]
    congr 1
    unfold Peard.addConverge
    cases os.canonicalize path with
    | error e => simp only [forgetStarted, Except.map, bind, Except.bind]
    | ok p =>
      by_cases hrelay : relay = []
      · simp only [hrelay, refuseIf, if_true, bind, Except.bind, throw, throwThe, MonadExceptOf.throw]
      · by_cases htoken : token = []
        · simp only [htoken, hrelay, refuseIf, forgetToken_eq_nil_iff, if_true, if_false, bind,
            Except.bind, throw, throwThe, MonadExceptOf.throw, pure, Except.pure]
        · simp only [htoken, hrelay, refuseIf, forgetToken_eq_nil_iff, if_false, bind, Except.bind,
            pure, Except.pure]
          exact Peard.start_forget s _ _ _
  | addMirror path workspace relay token name tlsCaCert =>
    simp only [Request.forget, Peard.perform, forgetPerformed_added]
    congr 1
    unfold Peard.addMirror
    cases os.canonicalize path with
    | error e => simp only [forgetStarted, Except.map, bind, Except.bind]
    | ok p =>
      by_cases hws : workspace = []
      · simp only [hws, refuseIf, if_true, bind, Except.bind, throw, throwThe, MonadExceptOf.throw]
      · by_cases htoken : token = []
        · simp only [htoken, hws, refuseIf, forgetToken_eq_nil_iff, if_true, if_false, bind,
            Except.bind, throw, throwThe, MonadExceptOf.throw, pure, Except.pure]
        · simp only [htoken, hws, refuseIf, forgetToken_eq_nil_iff, if_false, bind, Except.bind,
            pure, Except.pure]
          exact Peard.start_forget s _ _ _
  | list =>
    simp only [Request.forget, Peard.perform, Peard.entries_forget]
  | remove path =>
    simp only [Request.forget, Peard.perform, Peard.remove]
    cases hw : s.workers[os.keyOf path]? with
    | none =>
      rw [show s.forget.workers[os.keyOf path]? = none from hw]
    | some w =>
      rw [show s.forget.workers[os.keyOf path]? = some w from hw]
      simp only [forgetPerformed, Except.map, Option.map_some, Peard.forget, Peard.stopLoop_forget,
        List.map_map, Function.comp_def, Loop.forget_forget]
  | status path =>
    simp only [Request.forget, Peard.perform, Peard.entries_forget]
  | shutdown => rfl

theorem Peard.shutdown_forget (s : Peard) : s.shutdown.forget = s.forget.shutdown := by
  have hfold : ∀ (is : List Nat) (loops : List Loop),
      (is.foldl stopLoop loops).map Loop.forget = is.foldl stopLoop (loops.map Loop.forget) := by
    intro is
    induction is with
    | nil => exact fun loops => rfl
    | cons i is ih =>
      intro loops
      rw [List.foldl_cons, List.foldl_cons, ih, Peard.stopLoop_forget]
  simp only [Peard.shutdown, Peard.forget, hfold]

/-- A loop does not look at its token to decide what it does. -/
theorem Loop.step_forget (l : Loop) (t : LoopTick) :
    (l.step t).map Loop.forget = (l.forget.step t).map Loop.forget := by
  obtain ⟨control, thread⟩ := l
  cases thread with
  | none => rfl
  | some th =>
    obtain ⟨registration, token, mirroring, phase⟩ := th
    cases phase <;> cases t <;> try rfl
    all_goals
      cases mirroring <;> try rfl
    all_goals
      cases hneeds : registration.needsToken <;> simp [Loop.step, Loop.forget, hneeds]

end

/-! ## The host -/

section
variable {debug : Text → Text} {s s' : Peard} {h h' : PeardHost} {line line' : Except Text Json}

/-- Alike lines are alike requests, or get the same message. -/
theorem LineAlike.parse (debug : Text → Text) (hl : LineAlike line line') :
    (parseLine debug line).map Request.forget = (parseLine debug line').map Request.forget := by
  cases hl with
  | error reason => rfl
  | @ok v v' hv =>
    have heq := hv.ofJson_eq
    unfold parseLine
    dsimp only
    cases hr : Request.ofJson v with
    | error e =>
      cases hr' : Request.ofJson v' with
      | error e' =>
        rw [hr, hr'] at heq
        cases heq
        rfl
      | ok r' =>
        rw [hr, hr'] at heq
        cases heq
    | ok r =>
      cases hr' : Request.ofJson v' with
      | error e' =>
        rw [hr, hr'] at heq
        cases heq
      | ok r' =>
        rw [hr, hr'] at heq
        exact congrArg Except.ok (Except.ok.inj heq)

/-- Alike requests to alike registries come to the same. -/
theorem Peard.perform_alike (hs : s.forget = s'.forget) {r r' : Request}
    (hr : r.forget = r'.forget) (os : OsAnswers) :
    forgetPerformed (s.perform r os) = forgetPerformed (s'.perform r' os) := by
  rw [Peard.perform_forget s r os, Peard.perform_forget s' r' os, hs, hr]

/-- What is saved of a registry has no token. -/
theorem Peard.registrations_alike (hs : s.forget = s'.forget) :
    s.registrations = s'.registrations := by
  have hworkers : s.workers = s'.workers := (congrArg Peard.workers hs :)
  rw [Peard.registrations, hworkers]
  rfl

/-- **Alike requests to alike registries get the same response and leave the same files.** -/
theorem Peard.dispatch_alike (hs : s.forget = s'.forget) {r r' : Request}
    (hr : r.forget = r'.forget) (os : OsAnswers) (how : SaveEnd) (home : DaemonHome) :
    (s.dispatch r os how home).1 = (s'.dispatch r' os how home).1 ∧
      (s.dispatch r os how home).2.1.forget = (s'.dispatch r' os how home).2.1.forget ∧
      (s.dispatch r os how home).2.2 = (s'.dispatch r' os how home).2.2 := by
  have heq := Peard.perform_alike hs hr os
  unfold Peard.dispatch
  rcases hp : s.perform r os with e | ⟨answer, none | s₁⟩ <;>
    rcases hp' : s'.perform r' os with e' | ⟨answer', none | s₁'⟩ <;>
    rw [hp, hp'] at heq
  any_goals cases heq
  · exact ⟨rfl, hs, rfl⟩
  · exact ⟨rfl, hs, rfl⟩
  · have hinj := Except.ok.inj heq
    obtain ⟨rfl, hsome⟩ := Prod.mk.inj hinj
    have hs₁ : s₁.forget = s₁'.forget := Option.some.inj hsome
    have hregs := Peard.registrations_alike hs₁
    dsimp only
    rw [hregs]
    cases saveState s₁'.registrations how home with
    | mk res home' => cases res <;> exact ⟨rfl, hs₁, rfl⟩

theorem Request.forget_eq_shutdown {r : Request} : r.forget = .shutdown ↔ r = .shutdown := by
  cases r <;> simp [Request.forget]

/-- Alike connections get the same response and leave the same files. -/
theorem Peard.serve_alike (debug : Text → Text) (hs : s.forget = s'.forget) (hl : LineAlike line line') (os : OsAnswers)
    (how : SaveEnd) (delivered : Bool) (home : DaemonHome) :
    (s.serve debug line os how delivered home).1 = (s'.serve debug line' os how delivered home).1 ∧
      (s.serve debug line os how delivered home).2.1.forget =
        (s'.serve debug line' os how delivered home).2.1.forget ∧
      (s.serve debug line os how delivered home).2.2 =
        (s'.serve debug line' os how delivered home).2.2 := by
  have hparse := hl.parse debug
  unfold Peard.serve
  cases hr : parseLine debug line with
  | error message =>
    cases hr' : parseLine debug line' with
    | error message' =>
      rw [hr, hr'] at hparse
      cases hparse
      exact ⟨rfl, hs, rfl⟩
    | ok r' =>
      rw [hr, hr'] at hparse
      cases hparse
  | ok r =>
    cases hr' : parseLine debug line' with
    | error message' =>
      rw [hr, hr'] at hparse
      cases hparse
    | ok r' =>
      rw [hr, hr'] at hparse
      have hforget : r.forget = r'.forget := Except.ok.inj hparse
      by_cases hshut : r = .shutdown
      · have hshut' : r' = .shutdown :=
          Request.forget_eq_shutdown.mp (hforget ▸ Request.forget_eq_shutdown.mpr hshut)
        subst hshut hshut'
        refine ⟨rfl, ?_, rfl⟩
        cases delivered with
        | true => simp only [if_true, Peard.shutdown_forget, hs]
        | false => exact hs
      · have hshut' : r' ≠ .shutdown := fun h' =>
          hshut (Request.forget_eq_shutdown.mp (hforget.trans (Request.forget_eq_shutdown.mpr h')))
        have h := Peard.dispatch_alike hs hforget os how home
        cases r <;> cases r' <;> first | exact h | exact absurd rfl hshut | exact absurd rfl hshut'

/-- Alike connections leave the same files when the process is killed. -/
theorem Peard.killed_alike (debug : Text → Text) (hs : s.forget = s'.forget) (hl : LineAlike line line') (os : OsAnswers)
    (point : SavePoint) (home : DaemonHome) :
    s.killed debug line os point home = s'.killed debug line' os point home := by
  have hparse := hl.parse debug
  unfold Peard.killed
  cases hr : parseLine debug line with
  | error message =>
    cases hr' : parseLine debug line' with
    | error message' => rfl
    | ok r' =>
      rw [hr, hr'] at hparse
      cases hparse
  | ok r =>
    cases hr' : parseLine debug line' with
    | error message' =>
      rw [hr, hr'] at hparse
      cases hparse
    | ok r' =>
      rw [hr, hr'] at hparse
      have heq := Peard.perform_alike hs (Except.ok.inj hparse) os
      dsimp only
      rcases hp : s.perform r os with e | ⟨answer, none | s₁⟩ <;>
        rcases hp' : s'.perform r' os with e' | ⟨answer', none | s₁'⟩ <;>
        rw [hp, hp'] at heq
      any_goals cases heq
      obtain ⟨-, hsome⟩ := Prod.mk.inj (Except.ok.inj heq)
      dsimp only
      rw [Peard.registrations_alike (Option.some.inj hsome)]

/-- A restart with one token or another resumes alike. -/
theorem Peard.restore_forget {t t' : Option Text} (ht : t.isSome = t'.isSome)
    (rs : List Registration) : (Peard.restore t rs).forget = (Peard.restore t' rs).forget := by
  have hresume : ∀ r, (Peard.resume t r).forget = (Peard.resume t' r).forget := by
    intro r
    unfold Peard.resume
    cases r.needsToken with
    | false => rfl
    | true =>
      cases t with
      | none =>
        obtain rfl : t' = none := by simpa using ht.symm
        rfl
      | some t =>
        obtain ⟨t', rfl⟩ := Option.isSome_iff_exists.mp (by rw [← ht]; rfl : t'.isSome = true)
        rfl
  have hfold : ∀ (rs : List Registration) (s s' : Peard), s.forget = s'.forget →
      (rs.foldl (Peard.restoreOne t) s).forget = (rs.foldl (Peard.restoreOne t') s').forget := by
    intro rs
    induction rs with
    | nil => exact fun s s' hs => hs
    | cons r rs ih =>
      intro s s' hs
      have hworkers : s.workers = s'.workers := (congrArg Peard.workers hs :)
      refine ih _ _ ?_
      unfold Peard.restoreOne
      rw [hworkers]
      split
      · exact hs
      · rw [Peard.insert_forget, Peard.insert_forget, hs, hresume]
  exact hfold rs {} {} rfl

/-- What the daemon answers to a step of the host, if the client takes it. -/
def PeardHost.answer (debug : Text → Text) (h : PeardHost) (e : HostEvent) : Option Response :=
  match h.peard, e with
  | some s, .serve line os how true => some (s.serve debug line os how true h.home).1
  | _, _ => none

/-- What the daemon answers in a run. -/
def PeardHost.answers (debug : Text → Text) : PeardHost → List HostEvent → List (Option Response)
  | _, [] => []
  | h, e :: es =>
    match h.step debug e with
    | some h' => h.answer debug e :: h'.answers debug es
    | none => []

/-- Forgetting the tokens keeps the files and whether there is a process. -/
theorem PeardHost.forget_eq_iff : h.forget = h'.forget ↔
    h.home = h'.home ∧ h.peard.map Peard.forget = h'.peard.map Peard.forget := by
  cases h
  cases h'
  simp only [PeardHost.forget, PeardHost.mk.injEq]
  exact and_comm

/-- **Alike steps of alike hosts are alike, with the same answer.** -/
theorem PeardHost.step_alike (debug : Text → Text) {e e' : HostEvent} (hh : h.forget = h'.forget) (he : e.Alike e') :
    (h.step debug e).map PeardHost.forget = (h'.step debug e').map PeardHost.forget ∧
      h.answer debug e = h'.answer debug e' := by
  obtain ⟨hhome, hpeard⟩ := PeardHost.forget_eq_iff.mp hh
  obtain ⟨peard, home⟩ := h
  obtain ⟨peard', home'⟩ := h'
  obtain rfl : home = home' := hhome
  cases peard with
  | none =>
    obtain rfl : peard' = none := by simpa using hpeard.symm
    cases he with
    | start ht =>
      refine ⟨?_, rfl⟩
      simp only [PeardHost.step]
      cases home.load with
      | none => rfl
      | some rs =>
        simp only [Option.map_some, PeardHost.forget, Peard.restore_forget ht rs]
    | _ => exact ⟨rfl, rfl⟩
  | some s =>
    obtain ⟨s', rfl, hs'⟩ : ∃ s', peard' = some s' ∧ s'.forget = s.forget := by
      simpa using hpeard.symm
    have hs := hs'.symm
    have hclosing : s.closing = s'.closing := (congrArg Peard.closing hs :)
    cases he with
    | start ht => exact ⟨rfl, rfl⟩
    | serve hl os how delivered =>
      obtain ⟨hresp, hpeard', hfiles⟩ := Peard.serve_alike debug hs hl os how delivered home
      refine ⟨?_, ?_⟩
      · simp only [PeardHost.step, hclosing]
        split
        · rfl
        · simp only [Option.map_some, PeardHost.forget, hpeard', hfiles]
      · cases delivered with
        | true => exact congrArg some hresp
        | false => rfl
    | dieServing hl os point =>
      refine ⟨?_, rfl⟩
      simp only [PeardHost.step, hclosing, Peard.killed_alike debug hs hl os point home]
    | die => exact ⟨rfl, rfl⟩
    | tick i t =>
      refine ⟨?_, rfl⟩
      have hloops : s.loops.map Loop.forget = s'.loops.map Loop.forget :=
        (congrArg Peard.loops hs :)
      have hget : s.loops[i]?.map Loop.forget = s'.loops[i]?.map Loop.forget := by
        rw [← List.getElem?_map, ← List.getElem?_map, hloops]
      simp only [PeardHost.step]
      cases hl : s.loops[i]? with
      | none =>
        obtain hl' : s'.loops[i]? = none := by simpa [hl] using hget.symm
        rw [hl']
      | some l =>
        obtain ⟨l', hl', hll'⟩ : ∃ l', s'.loops[i]? = some l' ∧ l'.forget = l.forget := by
          simpa [hl] using hget.symm
        have hstep : (l.step t).map Loop.forget = (l'.step t).map Loop.forget := by
          rw [Loop.step_forget l, Loop.step_forget l', hll']
        rw [hl']
        dsimp only
        cases hst : l.step t with
        | none =>
          obtain hst' : l'.step t = none := by simpa [hst] using hstep.symm
          rw [hst']
        | some l₁ =>
          obtain ⟨l₁', hst', hll₁⟩ : ∃ l₁', l'.step t = some l₁' ∧ l₁'.forget = l₁.forget := by
            simpa [hst] using hstep.symm
          rw [hst']
          have hworkers : s.workers = s'.workers := (congrArg Peard.workers hs :)
          simp only [Option.map_some, PeardHost.forget, Peard.forget, List.map_set, hloops, hll₁,
            hworkers, hclosing]
    | exit deadline =>
      refine ⟨?_, rfl⟩
      have hdrained : s.drained = s'.drained := by
        rw [← Peard.drained_forget s, hs, Peard.drained_forget]
      simp only [PeardHost.step, hclosing, hdrained]

/-- **No token leaves the memory of the daemon.** Two hosts that differ at most in tokens, on which the
same happens up to the tokens of requests and of `PEAR_TOKEN`, give the same answers and have the same
files after every run, whatever fails in it; only whether a token is empty matters. -/
theorem daemon_tokens_secret {es es' : List HostEvent} {h₁ : PeardHost} (hh : h.forget = h'.forget)
    (hes : List.Forall₂ HostEvent.Alike es es')
    (hrun : Lib.replay (PeardHost.step debug) h es = some h₁) :
    h.answers debug es = h'.answers debug es' ∧
      ∃ h₁', Lib.replay (PeardHost.step debug) h' es' = some h₁' ∧ h₁'.home = h₁.home := by
  induction hes generalizing h h' with
  | nil =>
    cases hrun
    exact ⟨rfl, h', rfl, (PeardHost.forget_eq_iff.mp hh).1.symm⟩
  | @cons e e' es es' he _ ih =>
    obtain ⟨h₂, hstep, hrest⟩ := Option.bind_eq_some_iff.mp hrun
    obtain ⟨hmap, hanswer⟩ := PeardHost.step_alike debug hh he
    obtain ⟨h₂', hstep', hh₂⟩ : ∃ h₂', h'.step debug e' = some h₂' ∧ h₂'.forget = h₂.forget := by
      simpa [hstep] using hmap.symm
    obtain ⟨hanswers, h₁', hrun', hhome⟩ := ih hh₂.symm hrest
    refine ⟨?_, h₁', Option.bind_eq_some_iff.mpr ⟨h₂', hstep', hrun'⟩, hhome⟩
    rw [PeardHost.answers, PeardHost.answers, hstep, hstep', hanswer]
    exact congrArg _ hanswers

end

/-! ## A run -/

/-- Objects that differ in the text of their last token are alike. -/
theorem Json.Alike.of_fields (before : List (Text × Json)) {after : List (Text × Json)} {t t' : Text}
    (ht : t ≠ []) (ht' : t' ≠ []) (hafter : ∀ e ∈ after, e.1 ≠ "token".toList) :
    (Json.obj (before ++ ("token".toList, .str t) :: after)).Alike
      (.obj (before ++ ("token".toList, .str t') :: after)) := by
  have hget : ∀ (key s : Text), (Json.obj (before ++ ("token".toList, .str s) :: after)).get key =
      ((after.reverse.find? (·.1 = key)).or (([("token".toList, Json.str s)] ++
        before.reverse).find? (·.1 = key))).map (·.2) := by
    intro key s
    simp only [Json.get, List.reverse_append, List.reverse_cons, List.append_assoc,
      List.find?_append]
  have hnone : after.reverse.find? (·.1 = "token".toList) = none := by
    refine List.find?_eq_none.mpr fun e he => ?_
    simpa using hafter e (List.mem_reverse.mp he)
  constructor
  · intro key hkey
    rw [hget, hget]
    simp only [List.singleton_append, List.find?_cons_of_neg, decide_eq_true_eq, Ne.symm hkey,
      not_false_eq_true]
  · refine .inr ⟨t, t', ht, ht', ?_, ?_⟩ <;>
      · rw [hget, hnone]
        simp

/-- The line that adds a mirror with a token. -/
def mirrorLine (token : Text) : Except Text Json :=
  .ok (Request.addMirror watchedPath ['w'] ['r'] token none none).toJson

/-- Two mirrors added with two tokens, each resumed with another. -/
theorem daemon_tokens_secret_mirror :
    PeardHost.answers id {} [.start none, .serve (mirrorLine ['a']) watchedOs .saved true, .die,
        .start (some ['b'])] =
      PeardHost.answers id {} [.start none, .serve (mirrorLine ['c', 'd']) watchedOs .saved true, .die,
        .start (some ['e'])] := by
  obtain ⟨h₁, hrun⟩ : ∃ h₁, Lib.replay (PeardHost.step id) {} [.start none,
      .serve (mirrorLine ['a']) watchedOs .saved true, .die, .start (some ['b'])] = some h₁ :=
    Option.isSome_iff_exists.mp (by decide +kernel)
  have hline : LineAlike (mirrorLine ['a']) (mirrorLine ['c', 'd']) :=
    .ok (Json.Alike.of_fields [("type".toList, .str "add_mirror".toList), ("path".toList, .str "/w".toList),
      ("workspace".toList, .str ['w']), ("relay".toList, .str ['r'])] (by decide) (by decide)
      (by decide))
  exact (daemon_tokens_secret rfl (.cons (.start rfl) (.cons (.serve hline _ _ _) (.cons .die
    (.cons (.start rfl) .nil)))) hrun).1

end Pear
