import Pear.HeadFeed

/-!
# A mirror follows the head

The loop of `mirror` (`loops.rs`) over the head feed: it drains the channel, pulls, and waits for the next
hint or for the poll. Hints that arrive during the pull stay in the channel. A drain that came after the
pull would lose one of them; before it, whatever it takes the pull covers (`MirrorLoop.Dealt`). So a
mirror that waits after a pull that worked has applied the head, or its hint is on the way
(`mirror_follows_head`): nothing depends on the poll while the relay serves the connection.
-/

namespace Pear

/-- Where the loop is. -/
inductive MirrorPhase where
  /-- At the head of the loop. -/
  | top
  /-- In `feed.drain()`. -/
  | draining
  /-- In the pull, with the head that the relay has answered last. -/
  | pulling (seen : Option Nat)
  /-- In `recv_timeout`, after a pull that has applied this head, or has failed. -/
  | waiting (applied : Option Nat)
  | ended
deriving DecidableEq

/-- The link, the loop, and the head that its control shows. -/
structure MirrorLoop where
  link : FeedLink
  phase : MirrorPhase
  headSeq : Nat

/-- What happens next. -/
inductive MirrorEvent where
  | link (e : LinkEvent)
  /-- The look at the stop flag. -/
  | check (stopped : Bool)
  /-- `try_recv` -/
  | drain
  /-- The relay answers `get_workspace` or `get_head`. -/
  | look
  | pulled
  /-- The pull fails, deterministically or not. -/
  | fail (fatal : Bool)
  /-- The wait gets a hint, or times out. -/
  | wake
  | timeout

namespace MirrorLoop

/-- The loop has returned, and drops its end of the channel. -/
def endLoop (s : MirrorLoop) : MirrorLoop :=
  { s with phase := .ended, link := { s.link with receiver := false } }

/-- The channel after a receive. -/
def setRx (s : MirrorLoop) (rx : List Nat) (phase : MirrorPhase) : MirrorLoop :=
  { s with phase, link := { s.link with feed := { s.link.feed with rx } } }

/-- One step. -/
def step (workspace : Text) (s : MirrorLoop) (e : MirrorEvent) : Option MirrorLoop :=
  match s.phase, e with
  | _, .link e => (s.link.step workspace e).map fun link => { s with link }
  | .top, .check stopped => some (if stopped then s.endLoop else { s with phase := .draining })
  | .draining, .drain =>
    match s.link.feed.rx with
    | _ :: rx => some (s.setRx rx .draining)
    | [] => some { s with phase := .pulling none }
  | .pulling _, .look => some { s with phase := .pulling (some s.link.relay.head) }
  | .pulling (some n), .pulled => some { s with phase := .waiting (some n), headSeq := n }
  | .pulling _, .fail fatal => some (if fatal then s.endLoop else { s with phase := .waiting none })
  | .waiting _, .wake =>
    match s.link.feed.rx with
    | _ :: rx => some (s.setRx rx .top)
    | [] => none
  | .waiting _, .timeout => if s.link.feed.rx = [] then some { s with phase := .top } else none
  | _, _ => none

/-- A mirror that has just started. -/
def boot (head : Nat) : MirrorLoop := { link := .boot head, phase := .top, headSeq := 0 }

/-- No hint is lost at the relay. -/
def Lossless (s : MirrorLoop) : MirrorEvent → Prop
  | .link e => s.link.Lossless e
  | _ => True

/-- The head that was seen since the loop last waited, or that it waits with. -/
def seen? (s : MirrorLoop) : Option Nat :=
  match s.phase with
  | .pulling seen | .waiting seen => seen
  | _ => none

/-- A number is dealt with: the head that was seen is as late, or a pull is still going to see one. -/
def Dealt (s : MirrorLoop) (n : Nat) : Prop := ∀ seen, s.seen? = some seen → n ≤ seen

/-! ## What every step keeps -/

/-- The hints on their way are tracked, and what was seen is not beyond the head. -/
structure Inv (workspace : Text) (s : MirrorLoop) : Prop where
  tracked : s.link.Tracked workspace s.Dealt
  seen : ∀ n, s.seen? = some n → n ≤ s.link.relay.head
  headSeq : s.headSeq ≤ s.link.relay.head
  applied : ∀ n, s.phase = .waiting (some n) → s.headSeq = n

variable {workspace : Text} {s s' : MirrorLoop} {e : MirrorEvent}

theorem inv_boot (workspace : Text) (head : Nat) : (boot head).Inv workspace where
  tracked := FeedLink.tracked_boot workspace _ head
  seen := fun n h => by cases h
  headSeq := Nat.zero_le _
  applied := fun n h => by cases h

/-- A loop that has not seen a head since: everything is dealt with by the pull that comes. -/
theorem Inv.fresh (h : s.Inv workspace) (hrelay : s'.link.relay = s.link.relay)
    (hlink : ∀ done : Nat → Prop, (∀ n, done n) → s.link.Tracked workspace done →
      s'.link.Tracked workspace done)
    (hseen : s'.seen? = none) (hheadSeq : s'.headSeq = s.headSeq) : s'.Inv workspace where
  tracked := by
    have hdealt : ∀ n, s'.Dealt n := fun n seen hs => by
      rw [hseen] at hs
      cases hs
    exact hlink _ hdealt (h.tracked.mono fun n _ _ => hdealt n)
  seen := fun n hn => by
    rw [hseen] at hn
    cases hn
  headSeq := by
    rw [hrelay, hheadSeq]
    exact h.headSeq
  applied := fun n hn => by
    rw [seen?, hn] at hseen
    cases hseen

/-- A loop that drops its end of the channel loses nothing that it still wants. -/
theorem Inv.endLoop (h : s.Inv workspace) : s.endLoop.Inv workspace :=
  h.fresh rfl (fun _ _ ht => ⟨ht.inv, ht.due, ht.sent⟩) rfl rfl

/-- A loop that takes from the channel before it has seen anything. -/
theorem Inv.setRx (h : s.Inv workspace) (rx : List Nat) {phase : MirrorPhase}
    (hseen : (s.setRx rx phase).seen? = none) : (s.setRx rx phase).Inv workspace :=
  h.fresh rfl (fun _ hdone ht => ht.take fun n _ => .inr (hdone n)) hseen rfl

/-- **One step keeps the invariant.** -/
theorem Inv.step (h : s.Inv workspace) (hl : s.Lossless e) (hs : s.step workspace e = some s') :
    s'.Inv workspace := by
  unfold MirrorLoop.step at hs
  split at hs
  · -- The link goes on: the loop has seen what it has seen.
    obtain ⟨link, hlink, rfl⟩ := Option.map_eq_some_iff.mp hs
    have hhead := FeedLink.head_mono hlink
    exact ⟨h.tracked.step hl hlink, fun n hn => (h.seen n hn).trans hhead, h.headSeq.trans hhead,
      h.applied⟩
  · -- The stop flag.
    cases hs
    split
    · exact h.endLoop
    · exact h.fresh rfl (fun _ _ ht => ht) rfl rfl
  · -- The drain takes a hint, or finds none.
    split at hs
    · cases hs
      exact h.setRx _ rfl
    · cases hs
      exact h.fresh rfl (fun _ _ ht => ht) rfl rfl
  · -- The pull sees the head, and nothing that was sent is beyond it.
    cases hs
    refine ⟨h.tracked.mono fun n hn _ seen hseen => ?_, fun n hn => ?_, h.headSeq, fun n hn => ?_⟩
    · cases hseen
      exact hn
    · cases hn
      exact le_rfl
    · cases hn
  · -- The pull has applied it.
    rename_i n hphase
    have hseen : s.seen? = some n := by rw [seen?, hphase]
    cases hs
    refine ⟨h.tracked.mono fun m hm hdealt seen hs => ?_, fun m hm => ?_, h.seen n hseen, fun m hm => ?_⟩
    · cases hs
      exact hdealt n hseen
    · cases hm
      exact h.seen n hseen
    · cases hm
      rfl
  · -- The pull has failed.
    cases hs
    split
    · exact h.endLoop
    · exact h.fresh rfl (fun _ _ ht => ht) rfl rfl
  · -- A hint wakes the loop.
    split at hs
    · cases hs
      exact h.setRx _ rfl
    · cases hs
  · -- The poll does.
    split at hs
    · cases hs
      exact h.fresh rfl (fun _ _ ht => ht) rfl rfl
    · cases hs
  · cases hs

end MirrorLoop

/-- **A mirror follows the head.** In every interleaving of any number of commits and subscriptions with a
mirror's listener, its reconnects and its loop, in which no hint is lost at the relay: a mirror that
waits after a pull that worked has applied the head, unless the head's hint is on its way to it; and it
shows no number beyond the head. -/
theorem mirror_follows_head {workspace : Text} {head : Nat} {es : List MirrorEvent} {s : MirrorLoop}
    (run : Lib.Run (MirrorLoop.step workspace) MirrorLoop.Lossless (.boot head) es s) :
    (∀ n, s.phase = .waiting (some n) → s.link.Served →
      n = s.link.relay.head ∨ s.link.Coming workspace) ∧
    s.headSeq ≤ s.link.relay.head ∧ ∀ n, s.phase = .waiting (some n) → s.headSeq = n := by
  have hinv := run.invariant (I := MirrorLoop.Inv workspace) (fun _ _ _ h hl hs => h.step hl hs)
    (MirrorLoop.inv_boot workspace head)
  refine ⟨fun n hphase hserved => ?_, hinv.headSeq, hinv.applied⟩
  refine (hinv.tracked.coming hserved).imp_left fun hdealt => ?_
  have hseen : s.seen? = some n := by rw [MirrorLoop.seen?, hphase]
  exact Nat.le_antisymm (hinv.seen n hseen) (hdealt n hseen)

/-- No future is dropped after its commit, and no section without a handler commits. -/
def MirrorLoop.lossless (s : MirrorLoop) : MirrorEvent → Bool
  | .link (.relay e) => s.link.relay.lossless e
  | _ => true

theorem MirrorLoop.lossless_of_check (s : MirrorLoop) (e : MirrorEvent) (h : s.lossless e = true) :
    s.Lossless e := by
  cases e with
  | link e =>
    cases e with
    | relay e => exact Relay.Feed.lossless_of_check s.link.relay e h
    | noise | dial | upgraded | die | read | quiet | redial => trivial
  | check | drain | look | pulled | fail | wake | timeout => trivial

/-- A mirror connects, and pulls; a head is committed while it does, and its hint wakes the mirror. -/
def hintedPull : List MirrorEvent :=
  [.link (.dial 0), .link (.relay (.readHead 0 true)), .link .upgraded, .link (.relay (.greet 0)),
    .link .read, .check false, .drain, .drain, .look, .link (.relay (.request 0)),
    .link (.relay (.commit 0)), .link (.relay (.notify 0)), .link (.relay (.recv 0)), .link .read, .pulled,
    .wake, .check false, .drain, .look, .pulled]

/-- The mirror has applied the head that was committed during its first pull. -/
theorem mirror_follows_head_hinted : ∃ s : MirrorLoop,
    Lib.Run (MirrorLoop.step ['w']) MirrorLoop.Lossless (.boot 0) hintedPull s ∧
      (1 = s.link.relay.head ∨ s.link.Coming ['w']) ∧ s.headSeq = 1 := by
  have hrun : (Lib.replay (fun s e => if MirrorLoop.lossless s e then s.step ['w'] e else none)
      (.boot 0) hintedPull).map (fun s => (s.phase, s.link.attached,
        s.link.relay.subs[0]?.map (·.sent))) = some (.waiting (some 1), some 0, some [0, 1]) := by
    decide +kernel
  obtain ⟨s, hs, hfacts⟩ := Option.map_eq_some_iff.mp hrun
  obtain ⟨hphase, hfacts⟩ := Prod.mk.inj hfacts
  obtain ⟨hattached, hsub⟩ := Prod.mk.inj hfacts
  obtain ⟨sub, hsub, -⟩ := Option.map_eq_some_iff.mp hsub
  have run := Lib.Run.of_replay_if MirrorLoop.lossless_of_check hs
  obtain ⟨hhead, -, happlied⟩ := mirror_follows_head run
  exact ⟨s, run, hhead 1 hphase ⟨0, sub, hattached, hsub⟩, happlied 1 hphase⟩

end Pear
