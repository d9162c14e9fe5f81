import Pear.Rotation

/-!
# Identity pins against a hostile relay

Passes of `wrap_maintenance` over one `known_keys` file, with a relay that answers what it likes.
The log keeps every wrap that left the device, whatever came back, and every `pear trust`. A pass
pins a first sight in memory and writes the pins once, at its end; so one that stops in between has
sent a wrap under an identity that nobody pinned, and the next pass may send one under another.
Where no pass stops so, all wraps for a user go to one identity until the operator re-pins, which is
what the pins in the file keep along the runs (`Pinned`).
-/

namespace Pear

open Pear.Lib

/-- What happened: a wrap was sent, out of the members that were served, or a user was re-pinned. -/
inductive PinLog where
  | wrapped (served : List MemberInfo) (user : Text) (x25519 : Bytes)
  | trusted (user : Text)
deriving DecidableEq

/-- The pin file, the members served last, and what happened, newest first. -/
structure PinWorld where
  file : KnownKeys
  served : List MemberInfo
  log : List PinLog

/-- How a call comes out: what the relay answers, and whether the local files work. -/
structure Hostile (K : Type) where
  answer : (op : PassOp K) → op.Ret
  loaded : Bool
  saved : Bool
  kept : Bool

variable {K : Type}

/-- A hostile answer. A save that fails may have replaced the file. -/
def respond (h : Hostile K) : (op : PassOp K) → PinWorld → op.Ret × PinWorld
  | .loadKnownKeys, w => (if h.loaded then some w.file else none, w)
  | .saveKnownKeys pins, w =>
    (if h.saved then some () else none, if h.saved || h.kept then { w with file := pins } else w)
  | .teamMembers team, w =>
    (h.answer (.teamMembers team), { w with served := (h.answer (.teamMembers team)).getD [] })
  | .putWrappedKey user wrap, w =>
    (h.answer (.putWrappedKey user wrap),
      { w with log := .wrapped w.served user wrap.recipient :: w.log })
  | op, w => (h.answer op, w)

instance [Inhabited K] : Inhabited (Hostile K) where
  default :=
    { answer := fun op => match op with
        | .random => (default : K)
        | .loadKeyring | .getWorkspace | .teamMembers _ | .loadWrappedMembers
        | .localUserKeypair _ | .getMyWrappedKey | .loadKnownKeys | .storeKeyring _
        | .storeWrappedMembers _ | .putWrappedKey _ _ | .deleteWrappedKey _
        | .saveKnownKeys _ => none
      loaded := false
      saved := false
      kept := false }

/-- The hostile relay as a machine: every answer is somebody's choice. -/
def hostile [Inhabited K] : Machine PinWorld (PassOp K) PassOp.Ret (Hostile K) Empty where
  exec := respond default
  fault op h := respond h op
  act := nofun

/-- A pass of wrap maintenance with the answers it gets, or a `pear trust`. -/
inductive PinEvent (K : Type) where
  | pass (ring : Keyring K) (answers : List (Hostile K))
  | trust (user edHex : Text)

section
variable [Inhabited K] (edVerify : Bytes → Bytes → Bytes → Bool) (sealable : Bytes → Bool)

/-- A pass as far as its answers go. -/
def runPass (w : PinWorld) (ring : Keyring K) (answers : List (Hostile K)) :
    Option (PinWorld × Pass K WrapReport) :=
  replay hostile.step (w, wrapMaintenance edVerify sealable ring) (answers.map .fault)

def pinStep (w : PinWorld) : PinEvent K → Option PinWorld
  | .pass ring answers => (runPass edVerify sealable w ring answers).map (·.1)
  | .trust user edHex =>
    some { w with file := w.file.pin user edHex, log := .trusted user :: w.log }

/-- The pass ran to its end, or it stopped before a wrap went to a user with no pin in the file. -/
def Persisted (w : PinWorld) : PinEvent K → Prop
  | .pass ring answers => ∀ w' p, runPass edVerify sealable w ring answers = some (w', p) →
      (∃ report, p = .done report) ∨
      ∀ sends, w'.log = sends ++ w.log →
        ∀ served user x25519, .wrapped served user x25519 ∈ sends → user ∈ w.file
  | .trust _ _ => True

end

/-! ## One identity -/

/-- The log since the user was re-pinned. -/
def sinceTrust (user : Text) (log : List PinLog) : List PinLog := log.takeWhile (· ≠ .trusted user)

/-- A wrap's bundle is among the served ones, signed by this identity. -/
def SentTo (edVerify : Bytes → Bytes → Bytes → Bool) (served : List MemberInfo) (user : Text)
    (x25519 : Bytes) (edHex : Text) : Prop :=
  ∃ m ∈ served, m.user = user ∧ m.SignedBy edVerify edHex x25519

/-- One identity signed the bundles of all wraps for the user since it was re-pinned. -/
def OneIdentity (edVerify : Bytes → Bytes → Bytes → Bool) (user : Text) (log : List PinLog) :
    Prop :=
  ∃ edHex, ∀ served x25519, .wrapped served user x25519 ∈ sinceTrust user log →
    SentTo edVerify served user x25519 edHex

/-- The same at every earlier moment. -/
def Steady (edVerify : Bytes → Bytes → Bytes → Bool) (user : Text) (log : List PinLog) : Prop :=
  ∀ log', log' <:+ log → OneIdentity edVerify user log'

/-- The wraps for a user since it was re-pinned went to its pinned identity. -/
def Pinned (edVerify : Bytes → Bytes → Bytes → Bool) (pins : KnownKeys) (log : List PinLog) :
    Prop :=
  ∀ user served x25519, .wrapped served user x25519 ∈ sinceTrust user log →
    ∃ edHex, pins[user]? = some edHex ∧ SentTo edVerify served user x25519 edHex

section
variable {edVerify : Bytes → Bytes → Bytes → Bool} {pins pins' : KnownKeys} {log : List PinLog}
  {user : Text}

theorem Pinned.oneIdentity (h : Pinned edVerify pins log) : OneIdentity edVerify user log := by
  refine ⟨pins[user]?.getD [], fun served x25519 hmem => ?_⟩
  obtain ⟨edHex, hpin, hsent⟩ := h user served x25519 hmem
  rw [hpin]
  exact hsent

theorem steady_cons {e : PinLog} :
    Steady edVerify user (e :: log) ↔
      OneIdentity edVerify user (e :: log) ∧ Steady edVerify user log := by
  constructor
  · exact fun h => ⟨h _ List.suffix_rfl, fun log' hs => h log' (hs.trans (List.suffix_cons e log))⟩
  · rintro ⟨hone, hold⟩ log' hs
    rcases List.suffix_cons_iff.mp hs with rfl | hs
    · exact hone
    · exact hold log' hs

/-- More pins keep what was pinned. -/
theorem Pinned.mono (h : Pinned edVerify pins log)
    (hle : ∀ user edHex : Text, pins[user]? = some edHex → pins'[user]? = some edHex) :
    Pinned edVerify pins' log := by
  intro user served x25519 hmem
  obtain ⟨edHex, hpin, hsent⟩ := h user served x25519 hmem
  exact ⟨edHex, hle user edHex hpin, hsent⟩

/-- A wrap to the pinned identity. -/
theorem Pinned.wrapped {served : List MemberInfo} {x25519 : Bytes} {edHex : Text}
    (h : Pinned edVerify pins log) (hpin : pins[user]? = some edHex)
    (hsent : SentTo edVerify served user x25519 edHex) :
    Pinned edVerify pins (.wrapped served user x25519 :: log) := by
  intro user' served' x' hmem
  rw [sinceTrust, List.takeWhile_cons_of_pos (by simp)] at hmem
  rcases List.mem_cons.mp hmem with heq | hmem
  · cases heq
    exact ⟨edHex, hpin, hsent⟩
  · exact h user' served' x' hmem

/-- A re-pin starts the user's wraps anew. -/
theorem Pinned.trusted {edHex : Text} (h : Pinned edVerify pins log) :
    Pinned edVerify (pins.pin user edHex) (.trusted user :: log) := by
  intro user' served x25519 hmem
  by_cases hu : user' = user
  · rw [hu, sinceTrust, List.takeWhile_cons_of_neg (by simp)] at hmem
    cases hmem
  · rw [sinceTrust, List.takeWhile_cons_of_pos (by simp [Ne.symm hu])] at hmem
    rcases List.mem_cons.mp hmem with heq | hmem
    · cases heq
    · obtain ⟨edHex', hpin, hsent⟩ := h user' served x25519 hmem
      refine ⟨edHex', ?_, hsent⟩
      rw [KnownKeys.pin, getElem?_insert_eq, if_neg (Ne.symm hu), hpin]

theorem mem_sinceTrust_append {log' : List PinLog} {e : PinLog}
    (h : e ∈ sinceTrust user (log' ++ log)) : e ∈ log' ∨ e ∈ sinceTrust user log := by
  unfold sinceTrust at h ⊢
  rw [List.takeWhile_append] at h
  split at h
  · exact List.mem_append.mp h
  · exact .inl (List.takeWhile_subset _ h)

end

/-! ## One pass -/

/-- A pass that began at `w₀` and has these pins in memory. -/
structure Underway (edVerify : Bytes → Bytes → Bytes → Bool) (w₀ : PinWorld) (pins : KnownKeys)
    (w : PinWorld) : Prop where
  keeps : ∀ user edHex : Text, w₀.file[user]? = some edHex → pins[user]? = some edHex
  sends : w₀.log <:+ w.log
  pinned : Pinned edVerify pins w.log
  steady : ∀ user, Steady edVerify user w.log

/-- Wherever a pass stops, the file holds the old pins or the new ones. -/
def Stopped (edVerify : Bytes → Bytes → Bytes → Bool) (w₀ w : PinWorld) : Prop :=
  ∃ pins, Underway edVerify w₀ pins w ∧ (w.file = w₀.file ∨ w.file = pins)

section
variable {edVerify : Bytes → Bytes → Bytes → Bool} {sealable : Bytes → Bool} {w₀ w : PinWorld}
  {pins : KnownKeys} {m : MemberInfo} {edHex : Text} {x25519 : Bytes}

/-- A first sight is pinned. -/
theorem Underway.pin (h : Underway edVerify w₀ pins w) (hpin : pins[m.user]? = none) :
    Underway edVerify w₀ (pins.pin m.user edHex) w := by
  have hle : ∀ user edHex' : Text, pins[user]? = some edHex' →
      (pins.pin m.user edHex)[user]? = some edHex' := by
    intro user edHex' hu
    have hne : m.user ≠ user := by
      rintro rfl
      rw [hpin] at hu
      cases hu
    rw [KnownKeys.pin, getElem?_insert_eq, if_neg hne, hu]
  exact { h with
    keeps := fun user edHex' hu => hle _ _ (h.keeps user edHex' hu)
    pinned := h.pinned.mono hle }

/-- A wrap is sent to the pinned identity. -/
theorem Underway.send (h : Underway edVerify w₀ pins w) (hm : m ∈ w.served)
    (hpin : pins[m.user]? = some edHex) (hsigned : m.SignedBy edVerify edHex x25519) :
    Underway edVerify w₀ pins { w with log := .wrapped w.served m.user x25519 :: w.log } where
  keeps := h.keeps
  sends := h.sends.trans (List.suffix_cons _ _)
  pinned := h.pinned.wrapped hpin ⟨m, hm, rfl, hsigned⟩
  steady user := steady_cons.mpr
    ⟨(h.pinned.wrapped hpin ⟨m, hm, rfl, hsigned⟩).oneIdentity, h.steady user⟩

/-- The loop, while `rest` remains. -/
structure Looping (edVerify : Bytes → Bytes → Bytes → Bool) (w₀ : PinWorld)
    (rest : List MemberInfo) (s : WrapState) (w : PinWorld) : Prop where
  underway : Underway edVerify w₀ s.pins w
  file : w.file = w₀.file
  served : ∀ m ∈ rest, m ∈ w.served
  clean : s.pinsDirty = false → s.pins = w₀.file

/-- The contract of a pass that began at `w₀`: it leaves what can be stopped at. -/
def pinContract (K : Type) (edVerify : Bytes → Bytes → Bytes → Bool) (w₀ : PinWorld) :
    Contract PinWorld (PassOp K) :=
  .alone fun _ _ w' => Stopped edVerify w₀ w'

variable [Inhabited K] {ring : Keyring K}

/-- A call to a hostile relay: whatever it answers. -/
theorem wpCall_hostile {op : PassOp K} {Q : op.Ret → PinWorld → Prop}
    (h : ∀ a, Stopped edVerify w₀ (respond a op w).2 ∧ Q (respond a op w).1 (respond a op w).2) :
    wpCall hostile (pinContract K edVerify w₀) op Q w := by
  rintro _ rfl - out (_ | a)
  · exact h default
  · exact h a

/-- One member of the loop. -/
theorem wrapMember_pins {rest : List MemberInfo} {s : WrapState}
    (h : Looping edVerify w₀ (m :: rest) s w) :
    wp hostile (pinContract K edVerify w₀) (Looping edVerify w₀ rest)
      (wrapMember edVerify sealable ring s m) w := by
  have hm : m ∈ w.served := h.served m List.mem_cons_self
  have hrest : ∀ m ∈ rest, m ∈ w.served := fun m hm => h.served m (List.mem_cons_of_mem _ hm)
  have hskip : ∀ report, Looping edVerify w₀ rest { s with report := report } w :=
    fun report => ⟨h.underway, h.file, hrest, h.clean⟩
  unfold wrapMember
  split
  · trivial
  · rintro _ rfl; exact hskip _
  · rintro _ rfl; exact hskip _
  · rintro _ rfl; exact hskip _
  · rintro _ rfl; exact hskip _
  · rename_i x25519 firstSight hclass
    obtain ⟨edHex, hsigned, hpin⟩ := classifyMember_wrap hclass
    -- The pins the wrap is sent under, and what the loop knows of them.
    obtain ⟨s', hs', hunder, hpin', hclean⟩ : ∃ s', (if firstSight then s.pinFirst m else s) = s' ∧
        Underway edVerify w₀ s'.pins w ∧ s'.pins[m.user]? = some edHex ∧
        (s'.pinsDirty = false → s'.pins = w₀.file) := by
      cases firstSight with
      | false => exact ⟨s, rfl, h.underway, hpin, h.clean⟩
      | true =>
        refine ⟨s.pinFirst m, rfl, h.underway.pin hpin, ?_, nofun⟩
        simp [WrapState.pinFirst, KnownKeys.pin, hsigned.identity]
    dsimp only
    rw [hs']
    split
    · refine wp_bind (wp_need (wpCall_hostile fun a => ?_))
      have hsent := hunder.send hm hpin' hsigned
      refine ⟨⟨s'.pins, hsent, .inl h.file⟩, fun _ _ _ hr => ?_⟩
      cases hr
      rintro _ rfl
      exact ⟨hsent, h.file, hrest, hclean⟩
    · trivial

/-- A pass keeps what can be stopped at, and at its end its pins are in the file. -/
theorem wrapMaintenance_pins (hpinned : Pinned edVerify w₀.file w₀.log)
    (hsteady : ∀ user, Steady edVerify user w₀.log) :
    wp hostile (pinContract K edVerify w₀)
      (fun _ w => Underway edVerify w₀ w.file w)
      (wrapMaintenance edVerify sealable ring) w₀ := by
  have hstart : ∀ served, Underway edVerify w₀ w₀.file { w₀ with served := served } :=
    fun served => ⟨fun _ _ h => h, List.suffix_rfl, hpinned, hsteady⟩
  have hstop : ∀ served, Stopped edVerify w₀ { w₀ with served := served } :=
    fun served => ⟨w₀.file, hstart served, .inl rfl⟩
  unfold wrapMaintenance
  refine wp_bind (wp_need (wpCall_hostile fun a => ⟨hstop w₀.served, fun team? _ w hr => ?_⟩))
  cases hr
  cases team? with
  | none =>
    rintro _ rfl
    exact hstart w₀.served
  | some team =>
    refine wp_bind (wp_need (wpCall_hostile fun a => ⟨hstop w₀.served, fun pins hload w hr => ?_⟩))
    cases hr
    have hpins : w₀.file = pins := by
      dsimp only [respond, id] at hload
      split at hload
      · exact Option.some.inj hload
      · cases hload
    refine wp_bind (wp_need (wpCall_hostile fun a =>
      ⟨hstop _, fun members hmembers w hr => ?_⟩))
    cases hr
    have hserved : (a.answer (.teamMembers team)).getD [] = members := by
      rw [show a.answer (.teamMembers team) = some members from hmembers]
      rfl
    refine wp_bind (wp_mono (wp_foldlM (I := Looping edVerify w₀)
      (by rintro _ _ _ _ hi rfl; exact hi) (fun _ _ _ _ hi => wrapMember_pins hi) ?_) ?_)
    · refine ⟨hpins ▸ hstart _, rfl, fun m hm => ?_, fun _ => hpins.symm⟩
      show m ∈ (a.answer (.teamMembers team)).getD []
      rw [hserved]
      exact hm
    · intro s w hloop
      have hdone : ∀ pins', pins' = s.pins → Underway edVerify w₀ pins' { w with file := pins' } :=
        fun pins' h => h ▸ ⟨hloop.underway.keeps, hloop.underway.sends, hloop.underway.pinned,
          hloop.underway.steady⟩
      cases hdirty : s.pinsDirty with
      | false =>
        rintro _ rfl
        have := hdone w.file (hloop.file.trans (hloop.clean hdirty).symm)
        exact this
      | true =>
        refine wp_bind (wp_need (wpCall_hostile fun a => ⟨?_, fun _ hsave w' hr => ?_⟩))
        · refine ⟨s.pins, ?_⟩
          dsimp only [respond]
          split
          · exact ⟨hdone s.pins rfl, .inr rfl⟩
          · exact ⟨hloop.underway, .inl hloop.file⟩
        · cases hr
          rintro _ rfl
          dsimp only [respond, id] at hsave ⊢
          cases hsaved : a.saved with
          | false => simp [hsaved] at hsave
          | true => exact hdone s.pins rfl

/-! ## Runs -/

/-- What holds between passes. -/
structure PinInvariant (edVerify : Bytes → Bytes → Bytes → Bool) (w : PinWorld) : Prop where
  pinned : Pinned edVerify w.file w.log
  steady : ∀ user, Steady edVerify user w.log

/-- A pass stops as its contract says. -/
theorem runPass_stopped {answers : List (Hostile K)} {w' : PinWorld} {p : Pass K WrapReport}
    (hi : PinInvariant edVerify w₀)
    (h : runPass edVerify sealable w₀ ring answers = some (w', p)) :
    Stopped edVerify w₀ w' ∧ ∀ report, p = .done report → Underway edVerify w₀ w'.file w' := by
  have hwp : wp hostile (pinContract K edVerify w₀) (fun _ w => Underway edVerify w₀ w.file w)
      (wrapMaintenance edVerify sealable ring) w₀ :=
    wrapMaintenance_pins hi.pinned hi.steady
  have run := Run.of_replay (C := Admissible hostile (pinContract K edVerify w₀)) ?_ h
  · constructor
    · have hstart : Stopped edVerify w₀ w₀ :=
        ⟨w₀.file, ⟨fun _ _ h => h, List.suffix_rfl, hi.pinned, hi.steady⟩, .inl rfl⟩
      exact wp_always (by rintro _ _ rfl h; exact h) (fun _ _ _ hg _ => hg) run hwp hstart
    · rintro report rfl
      exact wp_done (Q := fun _ w => Underway edVerify w₀ w.file w) run hwp
  · rintro ⟨w, p⟩ e he
    obtain ⟨a, -, rfl⟩ := List.mem_map.mp he
    cases p <;> trivial

/-- One step keeps the invariant, unless a pass stops with a wrap out and no pin. -/
theorem PinInvariant.step {e : PinEvent K} {w' : PinWorld} (hi : PinInvariant edVerify w₀)
    (hok : Persisted edVerify sealable w₀ e) (h : pinStep edVerify sealable w₀ e = some w') :
    PinInvariant edVerify w' := by
  cases e with
  | trust user edHex =>
    cases h
    have htrusted : Pinned edVerify (w₀.file.pin user edHex) (.trusted user :: w₀.log) :=
      hi.pinned.trusted
    exact ⟨htrusted, fun user' => steady_cons.mpr ⟨htrusted.oneIdentity, hi.steady user'⟩⟩
  | pass ring answers =>
    obtain ⟨⟨w'', p⟩, hrun, rfl⟩ := Option.map_eq_some_iff.mp h
    obtain ⟨⟨pins, hunder, hfile⟩, hdone⟩ := runPass_stopped hi hrun
    rcases hok _ _ hrun with ⟨report, hp⟩ | hpinned
    · exact ⟨(hdone report hp).pinned, (hdone report hp).steady⟩
    · refine ⟨?_, hunder.steady⟩
      obtain ⟨sends, hsends⟩ := hunder.sends
      -- Every user with a wrap since its re-pin has a pin in the old file.
      have hold : Pinned edVerify w₀.file w''.log := by
        intro user served x25519 hmem
        obtain ⟨edHex, hpin, hsent⟩ := hunder.pinned user served x25519 hmem
        obtain ⟨edHex', hfile⟩ : ∃ edHex', w₀.file[user]? = some edHex' := by
          rw [← hsends] at hmem
          rcases mem_sinceTrust_append hmem with hnew | hlog
          · exact Std.ExtTreeMap.mem_iff_isSome_getElem?.mp
              (hpinned sends hsends.symm served user x25519 hnew) |> Option.isSome_iff_exists.mp
          · obtain ⟨edHex', hfile, -⟩ := hi.pinned user served x25519 hlog
            exact ⟨edHex', hfile⟩
        have := hunder.keeps user edHex' hfile
        rw [hpin] at this
        cases this
        exact ⟨edHex, hfile, hsent⟩
      rcases hfile with hfile | hfile
      · exact hfile ▸ hold
      · exact hfile ▸ hunder.pinned

/-- A pass changes no pin, wherever it stops. -/
theorem pass_keeps_pins {answers : List (Hostile K)} {w' : PinWorld}
    (hi : PinInvariant edVerify w₀)
    (h : pinStep edVerify sealable w₀ (.pass ring answers) = some w') {user edHex : Text}
    (hpin : w₀.file[user]? = some edHex) : w'.file[user]? = some edHex := by
  obtain ⟨⟨w'', p⟩, hrun, rfl⟩ := Option.map_eq_some_iff.mp h
  obtain ⟨⟨pins, hunder, hfile⟩, -⟩ := runPass_stopped hi hrun
  rcases hfile with hfile | hfile
  · rw [hfile]
    exact hpin
  · rw [hfile]
    exact hunder.keeps user edHex hpin

/-- **The wraps for a user go to one identity** until the operator re-pins it, each to an X25519 key
of a served bundle that verifies under it, and a pass changes no pin, where every pass runs to its
end or stops before a wrap goes to a user with no pin in the file. -/
theorem wraps_keep_identity {w w' : PinWorld} {events : List (PinEvent K)} (hlog : w.log = [])
    (run : Run (pinStep edVerify sealable) (Persisted edVerify sealable) w events w') :
    (∀ user, Steady edVerify user w'.log) ∧
    (∀ served user x25519, .wrapped served user x25519 ∈ w'.log →
      ∃ edHex, SentTo edVerify served user x25519 edHex) ∧
    ∀ (ring : Keyring K) answers w'',
      pinStep edVerify sealable w' (.pass ring answers) = some w'' →
      ∀ user edHex : Text, w'.file[user]? = some edHex → w''.file[user]? = some edHex := by
  have hstart : PinInvariant edVerify w := by
    constructor
    · intro user served x25519 hmem
      rw [hlog] at hmem
      cases hmem
    · intro user log' hs
      rw [hlog, List.suffix_nil] at hs
      subst hs
      exact ⟨[], fun _ _ hmem => nomatch hmem⟩
  have hi := run.invariant (fun _ _ _ hi hok h => PinInvariant.step hi hok h) hstart
  refine ⟨hi.steady, fun served user x25519 hmem => ?_, fun ring answers w'' h user edHex hpin => ?_⟩
  · obtain ⟨before, after, hsplit⟩ := List.append_of_mem hmem
    obtain ⟨edHex, hsent⟩ := hi.steady user _ ⟨before, hsplit.symm⟩
    refine ⟨edHex, hsent served x25519 ?_⟩
    rw [sinceTrust, List.takeWhile_cons_of_pos (by simp)]
    exact List.mem_cons_self
  · exact pass_keeps_pins hi h hpin

end

/-- A relay that serves these members and accepts wraps, and the local files. -/
def serving (members : List MemberInfo) (saved : Bool) : Hostile Nat where
  answer op := match op with
    | .getWorkspace => some (some "crew".toList)
    | .teamMembers _ => some members
    | .putWrappedKey _ _ | .deleteWrappedKey _ | .storeKeyring _ | .storeWrappedMembers _
    | .saveKnownKeys _ => some ()
    | .random => 0
    | .loadKeyring | .loadWrappedMembers | .localUserKeypair _ | .getMyWrappedKey
    | .loadKnownKeys => none
  loaded := true
  saved := saved
  kept := false

/-- A pass that is served one member of this identity, of so many calls. -/
def passFor (identity : Char) (saved : Bool) (calls : Nat) : PinEvent Nat :=
  .pass (.fromLegacy 7) (List.replicate calls (serving [bundleOf "ana".toList identity] saved))

/-- A pass that runs to its end, as a check. -/
def runsToEnd (w : PinWorld) : PinEvent Nat → Bool
  | .pass ring answers => (runPass (fun _ _ _ => true) (fun _ => true) w ring answers).all
      fun s => match s.2 with
        | .done _ => true
        | _ => false
  | .trust _ _ => true

theorem persisted_of_runsToEnd (w : PinWorld) (e : PinEvent Nat) (h : runsToEnd w e = true) :
    Persisted (fun _ _ _ => true) (fun _ => true) w e := by
  cases e with
  | trust user edHex => trivial
  | pass ring answers =>
    intro w' p hrun
    rw [runsToEnd, hrun] at h
    cases p with
    | done report => exact .inl ⟨report, rfl⟩
    | fail e | call op k => cases h

theorem wraps_keep_identity_twice :
    ∃ w : PinWorld, w.log.length = 2 ∧ ∀ user, Steady (fun _ _ _ => true) user w.log := by
  have hlog : (replay (fun w e => if runsToEnd w e then
      pinStep (fun _ _ _ => true) (fun _ => true) w e else none) ⟨∅, [], []⟩
      [passFor 'a' true 5, passFor 'a' true 4]).map (·.log.length) = some 2 := by
    decide +kernel
  obtain ⟨w, hw, hlog⟩ := Option.map_eq_some_iff.mp hlog
  exact ⟨w, hlog, (wraps_keep_identity rfl (.of_replay_if persisted_of_runsToEnd hw)).1⟩

/-- **A pass whose last write fails has pinned nobody**: the next one wraps the ring for the same
user to another identity. -/
theorem second_identity_wrapped :
    ∃ w : PinWorld, Run (pinStep (fun _ _ _ => true) (fun _ => true)) (fun _ _ => True)
      ⟨∅, [], []⟩ [passFor 'a' false 5, passFor 'b' true 5] w ∧
      ¬ Steady (fun _ _ _ => true) "ana".toList w.log := by
  have hlog : ((replay (pinStep (fun _ _ _ => true) (fun _ => true)) ⟨∅, [], []⟩
      [passFor 'a' false 5, passFor 'b' true 5]).map (·.log)) =
      some [.wrapped [bundleOf "ana".toList 'b'] "ana".toList (List.replicate 32 0),
        .wrapped [bundleOf "ana".toList 'a'] "ana".toList (List.replicate 32 0)] := by
    decide +kernel
  obtain ⟨w, hw, hlog⟩ := Option.map_eq_some_iff.mp hlog
  refine ⟨w, .of_replay (fun _ _ _ => trivial) hw, fun h => ?_⟩
  obtain ⟨edHex, hsent⟩ := h _ List.suffix_rfl
  rw [hlog] at hsent
  have hidentity : ∀ identity, .wrapped [bundleOf "ana".toList identity] "ana".toList
      (List.replicate 32 0) ∈ sinceTrust "ana".toList w.log → edHex = List.replicate 64 identity := by
    intro identity hmem
    rw [hlog] at hmem
    obtain ⟨m, hm, -, hsigned⟩ := hsent _ _ hmem
    obtain rfl := List.mem_singleton.mp hm
    exact (Option.some.inj hsigned.identity).symm
  have ha := hidentity 'a' (by rw [hlog]; decide +kernel)
  have hb := hidentity 'b' (by rw [hlog]; decide +kernel)
  rw [ha] at hb
  revert hb
  decide

end Pear
