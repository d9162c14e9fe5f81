import Pear.Manifest
import Pear.Relay.Feed

/-!
# Following the head

The client's side of the head feed (`relay.rs`): the listener thread, which connects again after every
failure (`ws_listen`), reads frames from its socket (`ws_listen_keepalive`) and passes the hints of its
workspace on through a channel (`HeadFeed`). The state holds the relay's feed too, and the frames on the
socket between them; `FeedLink.step` interleaves the tasks of the relay with the listener's.

Whatever happens to the connection, a number that the relay has sent on it is on the socket, in the
channel, or has been taken from there (`FeedLink.Tracked`); so over a connection that the relay still
serves, the head is either dealt with or on its way (`FeedLink.Tracked.coming`). Time is not in the
state: a read may time out whenever nothing is on the socket.
-/

namespace Pear

open Relay (Feed FeedEvent FeedInv FeedMove Subscriber)

/-! ## Hints -/

/-- A text frame of the feed, as `parse_head_hint` reads its JSON. -/
structure HeadHint where
  kind : Text
  workspace : Text
  seq : Nat
deriving DecidableEq

/-- A frame: a text, which may be no hint at all, or a ping, a pong or a binary frame. -/
inductive FeedFrame where
  | text (hint : Option HeadHint)
  | other
deriving DecidableEq

def headNow : Text := "head_now".toList
def headChanged : Text := "head_changed".toList

/-- The catch-up on connecting, and the hint after a commit. -/
def headNowMessage (workspace : Text) (seq : Nat) : FeedFrame := .text (some ⟨headNow, workspace, seq⟩)
def headChangedMessage (workspace : Text) (seq : Nat) : FeedFrame :=
  .text (some ⟨headChanged, workspace, seq⟩)

/-- Both kinds of hints mean the same; a hint for another workspace and an unknown kind are ignored. -/
def parseHeadHint (workspace : Text) (hint : Option HeadHint) : Option Nat :=
  hint.bind fun h =>
    if (h.kind = headNow ∨ h.kind = headChanged) ∧ h.workspace = workspace then some h.seq else none

/-- The number that the listener passes on. -/
def FeedFrame.seq? (workspace : Text) : FeedFrame → Option Nat
  | .text hint => parseHeadHint workspace hint
  | .other => none

/-! ## The listener -/

/-- `WS_RECONNECT_MIN` and `WS_RECONNECT_MAX`, in seconds. -/
def wsReconnectMin : Nat := 1
def wsReconnectMax : Nat := 30

/-- The next delay: from the start after a connection that was stable, otherwise doubled. -/
def nextBackoff (current : Nat) (wasStable : Bool) : Nat :=
  if wasStable then wsReconnectMin else min (current * 2) wsReconnectMax

/-- Where the listener thread is. -/
inductive ListenPhase where
  /-- In the sleep after an attempt. -/
  | backoff
  /-- In `ws_connect`, before the relay has the request. -/
  | dialing
  /-- In the handshake: the request is this subscription of the relay. -/
  | handshake (c : Nat)
  /-- In `socket.read()`, with or without a ping that is not answered. -/
  | reading (c : Nat) (pingOutstanding : Bool)
  /-- Returned, since the receiver is gone. -/
  | orphaned
deriving DecidableEq

/-- What a loop has of the feed: the channel's hints, and whether a listener holds an open socket. -/
structure HeadFeed where
  rx : List Nat
  connected : Bool

/-- The relay's feed of the workspace, the frames on the listener's socket, the listener with its next
delay, and the loop's end of the channel, which it may have dropped. -/
structure FeedLink where
  relay : Feed
  frames : List FeedFrame
  listener : ListenPhase
  backoff : Nat
  feed : HeadFeed
  receiver : Bool

/-- What happens next. -/
inductive LinkEvent where
  /-- A task of the relay goes on. -/
  | relay (e : FeedEvent)
  /-- The relay, or somebody on the way, puts a frame on the socket that is no hint of the workspace. -/
  | noise (f : FeedFrame)
  /-- The relay takes the request, and the handshake is answered. -/
  | dial (c : Nat)
  | upgraded
  /-- The attempt ends: it is refused, the connection is closed, or a call fails. -/
  | die
  /-- A read gets a frame, or times out; then the listener pings, which may fail. -/
  | read
  | quiet (pinged : Bool)
  /-- The sleep ends, and the attempt counts as a stable connection or not. -/
  | redial (stable : Bool)

namespace FeedLink

/-- The subscription that the listener's socket is connected to. -/
def attached (s : FeedLink) : Option Nat :=
  match s.listener with
  | .handshake c | .reading c _ => some c
  | _ => none

/-- The numbers handed to the socket of a subscription, and those that a step has added. -/
def sentOn (relay : Feed) (c : Nat) : List Nat := ((relay.subs[c]?).map (·.sent)).getD []
def delivered (before after : Feed) (c : Nat) : List Nat :=
  (sentOn after c).drop (sentOn before c).length

/-- The frame for a number. -/
def message (workspace : Text) : FeedEvent → Nat → FeedFrame
  | .greet _ => headNowMessage workspace
  | _ => headChangedMessage workspace

/-- The attempt is over: what is on the socket is lost. -/
def dead (s : FeedLink) : FeedLink :=
  { s with frames := [], listener := .backoff, feed := { s.feed with connected := false } }

/-- A subscription of somebody else does not take the number of the listener's. -/
def clear (s : FeedLink) : FeedEvent → Bool
  | .subscribe c => s.attached ≠ some c
  | _ => true

/-- One step. -/
def step (workspace : Text) (s : FeedLink) : LinkEvent → Option FeedLink
  | .relay e =>
    if s.clear e then
      (s.relay.step e).map fun relay =>
        { s with
          relay
          frames := s.frames ++
            (s.attached.toList.flatMap (delivered s.relay relay)).map (message workspace e) }
    else none
  | .noise f =>
    if s.attached.isSome ∧ f.seq? workspace = none then some { s with frames := s.frames ++ [f] }
    else none
  | .dial c =>
    if s.listener = .dialing then
      (s.relay.step (.subscribe c)).map fun relay => { s with relay, listener := .handshake c }
    else none
  | .upgraded =>
    match s.listener with
    | .handshake c =>
      if s.relay.subs[c]?.map (·.phase) = some .registered then none
      else some { s with listener := .reading c false, feed := { s.feed with connected := true } }
    | _ => none
  | .die =>
    match s.listener with
    | .dialing | .handshake _ | .reading _ _ => some s.dead
    | _ => none
  | .read =>
    match s.listener, s.frames with
    | .reading c _, f :: frames =>
      match f.seq? workspace with
      | none => some { s with frames, listener := .reading c false }
      | some seq =>
        if s.receiver then
          some { s with
            frames
            listener := .reading c false
            feed := { s.feed with rx := s.feed.rx ++ [seq] } }
        else some { s.dead with listener := .orphaned }
    | _, _ => none
  | .quiet pinged =>
    match s.listener, s.frames with
    | .reading c pingOutstanding, [] =>
      if pingOutstanding = true ∨ pinged = false then some s.dead
      else some { s with listener := .reading c true }
    | _, _ => none
  | .redial stable =>
    if s.listener = .backoff then
      some { s with listener := .dialing, backoff := nextBackoff s.backoff stable }
    else none

/-- A workspace with a head, and a listener that has just been spawned. -/
def boot (head : Nat) : FeedLink where
  relay := .boot head
  frames := []
  listener := .dialing
  backoff := wsReconnectMin
  feed := { rx := [], connected := false }
  receiver := true

/-- No hint is lost on a subscriber of the relay. -/
def Lossless (s : FeedLink) : LinkEvent → Prop
  | .relay e => s.relay.Lossless e
  | _ => True

/-- The relay still has the subscription of the listener's socket. -/
def Served (s : FeedLink) : Prop :=
  ∃ c sub, s.attached = some c ∧ s.relay.subs[c]? = some sub

end FeedLink

/-- A subscriber is going to be sent a number, or to be closed. -/
def Relay.Subscriber.Owes (sub : Subscriber) (seq : Nat) : Prop :=
  sub.rx.lagged = true ∨ seq ∈ sub.rx.queue ∨ sub.phase = .registered ∨ sub.phase = .upgrading seq

/-- **The head's hint is on its way** to the loop: a handler is about to send it, the subscription is,
it is on the socket, or in the channel. -/
def FeedLink.Coming (workspace : Text) (s : FeedLink) : Prop :=
  s.relay.Hinting s.relay.head ∨
  (∃ c sub, s.attached = some c ∧ s.relay.subs[c]? = some sub ∧ sub.Owes s.relay.head) ∨
  (∃ f ∈ s.frames, f.seq? workspace = some s.relay.head) ∨
  s.relay.head ∈ s.feed.rx

/-! ## What a step does -/

section
variable {workspace : Text} {s s' : FeedLink} {e : LinkEvent} {c n : Nat} {f : FeedFrame}

@[simp] theorem seq?_message (e : FeedEvent) (n : Nat) :
    (FeedLink.message workspace e n).seq? workspace = some n := by
  have hnow : (headNowMessage workspace n).seq? workspace = some n := if_pos ⟨.inl rfl, rfl⟩
  have hchanged : (headChangedMessage workspace n).seq? workspace = some n :=
    if_pos ⟨.inr rfl, rfl⟩
  cases e with
  | greet c => exact hnow
  | request | commit | refuse | drop | notify | subscribe | readHead | recv | disconnect =>
    exact hchanged

/-- The cases of a step, by what becomes of the hints. -/
inductive LinkMove (workspace : Text) (s : FeedLink) : LinkEvent → FeedLink → Prop
  | relay {e : FeedEvent} {relay : Feed} {frames : List FeedFrame} (hclear : s.clear e = true)
    (hs : s.relay.step e = some relay) (hold : ∀ f ∈ s.frames, f ∈ frames)
    (hadd : ∀ c, s.attached = some c → ∀ n ∈ FeedLink.delivered s.relay relay c,
      ∃ f ∈ frames, f.seq? workspace = some n) :
    LinkMove workspace s (.relay e) { s with relay, frames }
  | noise {f : FeedFrame} : LinkMove workspace s (.noise f) { s with frames := s.frames ++ [f] }
  | dial {c : Nat} {relay : Feed} (hs : s.relay.step (.subscribe c) = some relay) :
    LinkMove workspace s (.dial c) { s with relay, listener := .handshake c }
  /-- The connection goes on, and loses no hint that is not passed on. -/
  | pass {e : LinkEvent} {c : Nat} {ping connected : Bool} {frames : List FeedFrame} {rx : List Nat}
    (hattached : s.attached = some c) (hrx : ∀ n ∈ s.feed.rx, n ∈ rx)
    (hframes : ∀ f ∈ s.frames, ∀ n, f.seq? workspace = some n → f ∈ frames ∨ n ∈ rx) :
    LinkMove workspace s e
      { s with frames, listener := .reading c ping, feed := { rx, connected } }
  /-- There is no connection, or no longer one. -/
  | dead {e : LinkEvent} {s' : FeedLink} (hattached : s'.attached = none)
    (hrelay : s'.relay = s.relay) (hrx : s'.feed.rx = s.feed.rx) : LinkMove workspace s e s'

/-- **Every step is one of these.** -/
theorem FeedLink.move_of_step (h : s.step workspace e = some s') : LinkMove workspace s e s' := by
  cases e with
  | relay e =>
    by_cases hclear : s.clear e = true
    · obtain ⟨relay, hs, rfl⟩ := Option.map_eq_some_iff.mp ((if_pos hclear).symm.trans h)
      refine .relay hclear hs (fun f hf => List.mem_append_left _ hf) fun c hc n hn => ?_
      refine ⟨message workspace e n, List.mem_append_right _ (List.mem_map_of_mem ?_),
        seq?_message e n⟩
      rw [hc]
      exact List.mem_flatMap.mpr ⟨c, List.mem_singleton_self c, hn⟩
    · cases (if_neg hclear).symm.trans h
  | noise f =>
    by_cases hf : s.attached.isSome ∧ f.seq? workspace = none
    · obtain rfl := Option.some.inj ((if_pos hf).symm.trans h)
      exact .noise
    · cases (if_neg hf).symm.trans h
  | dial c =>
    by_cases hlistener : s.listener = .dialing
    · obtain ⟨relay, hs, rfl⟩ := Option.map_eq_some_iff.mp ((if_pos hlistener).symm.trans h)
      exact .dial hs
    · cases (if_neg hlistener).symm.trans h
  | upgraded =>
    unfold step at h
    dsimp only at h
    split at h
    · rename_i c hlistener
      split at h
      · cases h
      · cases h
        exact .pass (by rw [attached, hlistener]) (fun n hn => hn) fun f hf n _ => .inl hf
    · cases h
  | die =>
    unfold step at h
    dsimp only at h
    split at h <;> cases h <;> exact .dead rfl rfl rfl
  | read =>
    unfold step at h
    dsimp only at h
    split at h
    · rename_i c ping f frames hlistener hframes
      have hattached : s.attached = some c := by rw [attached, hlistener]
      split at h
      · rename_i hf
        cases h
        refine .pass hattached (fun n hn => hn) fun g hg n hn => ?_
        rw [hframes] at hg
        rcases List.mem_cons.mp hg with rfl | hg
        · rw [hf] at hn
          cases hn
        · exact .inl hg
      · rename_i seq hf
        split at h
        · cases h
          refine .pass hattached (fun n hn => List.mem_append_left _ hn) fun g hg n hn => ?_
          rw [hframes] at hg
          rcases List.mem_cons.mp hg with rfl | hg
          · rw [hf] at hn
            cases hn
            exact .inr (List.mem_append_right _ (List.mem_singleton_self _))
          · exact .inl hg
        · cases h
          exact .dead rfl rfl rfl
    · cases h
  | quiet pinged =>
    unfold step at h
    dsimp only at h
    split at h
    · rename_i c ping hlistener hframes
      split at h
      · cases h
        exact .dead rfl rfl rfl
      · cases h
        refine .pass (by rw [attached, hlistener]) (fun n hn => hn) fun f hf n hn => .inl hf
    · cases h
  | redial stable =>
    by_cases hlistener : s.listener = .backoff
    · obtain rfl := Option.some.inj ((if_pos hlistener).symm.trans h)
      exact .dead rfl rfl rfl
    · cases (if_neg hlistener).symm.trans h

/-! ## What the relay sends -/

/-- A step of the relay adds to what a subscription was sent. -/
theorem Relay.Feed.sent_step {relay relay' : Feed} {e : FeedEvent} {sub' : Subscriber}
    (hinv : FeedInv relay) (hs : relay.step e = some relay') (hnew : e ≠ .subscribe c)
    (hsub' : relay'.subs[c]? = some sub') :
    ∃ sub new, relay.subs[c]? = some sub ∧ sub'.sent = sub.sent ++ new := by
  have hsame : relay.subs[c]? = some sub' →
      ∃ sub new, relay.subs[c]? = some sub ∧ sub'.sent = sub.sent ++ new :=
    fun h => ⟨sub', [], h, (List.append_nil _).symm⟩
  cases Feed.move_of_step hs with
  | idle | commit | commitOrphaned | dropHint => exact hsame hsub'
  | @notify i n hp =>
    obtain ⟨-, sub, hsub, rfl⟩ := Feed.notifyHeadChanged_subs
      (s := { relay with puts := relay.puts.erase i }) hinv.onChannel n hsub'
    exact ⟨sub, [], hsub, (List.append_nil _).symm⟩
  | subscribe =>
    rcases Lib.getElem?_insert_cases hsub' with ⟨rfl, -⟩ | ⟨-, hsub⟩
    · exact absurd rfl hnew
    · exact hsame hsub
  | readHead hc =>
    rcases Lib.getElem?_insert_cases hsub' with ⟨rfl, rfl⟩ | ⟨-, hsub⟩
    · exact ⟨_, [], hc, (List.append_nil _).symm⟩
    · exact hsame hsub
  | greet hc | recv hc =>
    rcases Lib.getElem?_insert_cases hsub' with ⟨rfl, rfl⟩ | ⟨-, hsub⟩
    · exact ⟨_, _, hc, rfl⟩
    · exact hsame hsub
  | gone => exact hsame (Lib.getElem?_of_erase hsub').2

/-- A new subscription was sent nothing. -/
theorem Relay.Feed.sent_of_subscribe {relay relay' : Feed} {sub : Subscriber}
    (hs : relay.step (.subscribe c) = some relay') (hsub : relay'.subs[c]? = some sub) :
    sub.sent = [] := by
  unfold step at hs
  dsimp only at hs
  split at hs
  · cases hs
    rcases Lib.getElem?_insert_cases hsub with ⟨-, rfl⟩ | ⟨hne, -⟩
    · rfl
    · exact absurd rfl hne
  · cases hs

/-- What a subscription was sent it was sent before the step, or the step has delivered it. -/
theorem FeedLink.mem_sent_step {relay relay' : Feed} {e : FeedEvent} {sub' : Subscriber}
    (hinv : FeedInv relay) (hs : relay.step e = some relay') (hnew : e ≠ .subscribe c)
    (hsub' : relay'.subs[c]? = some sub') :
    ∃ sub, relay.subs[c]? = some sub ∧
      ∀ n ∈ sub'.sent, n ∈ sub.sent ∨ n ∈ delivered relay relay' c := by
  obtain ⟨sub, new, hsub, hsent⟩ := Relay.Feed.sent_step hinv hs hnew hsub'
  refine ⟨sub, hsub, fun n hn => ?_⟩
  have hdelivered : delivered relay relay' c = new := by
    rw [delivered, sentOn, sentOn, hsub, hsub', Option.map_some, Option.map_some, Option.getD_some,
      Option.getD_some, hsent, List.drop_left]
  rw [hdelivered]
  exact List.mem_append.mp (hsent ▸ hn)

/-! ## No hint is lost on the way -/

/-- What holds of the link in every state, for the numbers that the loop has dealt with. -/
structure FeedLink.Tracked (workspace : Text) (done : Nat → Prop) (s : FeedLink) : Prop where
  inv : FeedInv s.relay
  due : s.relay.Due
  /-- What was sent on the connection is on the socket, in the channel, or dealt with. -/
  sent : ∀ c sub, s.attached = some c → s.relay.subs[c]? = some sub → ∀ n ∈ sub.sent,
    (∃ f ∈ s.frames, f.seq? workspace = some n) ∨ n ∈ s.feed.rx ∨ done n

theorem FeedLink.tracked_boot (workspace : Text) (done : Nat → Prop) (head : Nat) :
    (boot head).Tracked workspace done where
  inv :=
    { onChannel := fun c sub hc => by cases hc
      hints := fun n hn => by
        obtain ⟨h, hn⟩ := hn
        cases hn
      within := fun c sub hc => by cases hc }
  due := fun c sub hc => by cases hc
  sent := fun c sub hc => by cases hc

/-- A step of the relay goes no further back. -/
theorem Relay.Feed.head_mono {relay relay' : Feed} {e : FeedEvent}
    (hs : relay.step e = some relay') : relay.head ≤ relay'.head := by
  cases Feed.move_of_step hs with
  | commit | commitOrphaned => exact Nat.le_succ _
  | notify => rw [Feed.notifyHeadChanged_head]
  | idle | dropHint | subscribe | readHead | greet | recv | gone => exact le_rfl

theorem FeedLink.head_mono (h : s.step workspace e = some s') : s.relay.head ≤ s'.relay.head := by
  cases move_of_step h with
  | relay _ hs | dial hs => exact Relay.Feed.head_mono hs
  | noise | pass => exact le_rfl
  | dead _ hrelay => rw [hrelay]

/-- **A step loses no hint**, whatever happens to the connection. -/
theorem FeedLink.Tracked.step {done : Nat → Prop} (ht : s.Tracked workspace done)
    (hl : s.Lossless e) (h : s.step workspace e = some s') : s'.Tracked workspace done := by
  cases move_of_step h with
  | @relay e relay frames hclear hs hold hadd =>
    refine ⟨ht.inv.step hs, ht.due.step ht.inv hl hs, fun c sub' hc hsub' n hn => ?_⟩
    have hc : s.attached = some c := hc
    have hnew : e ≠ .subscribe c := by
      rintro rfl
      exact of_decide_eq_true hclear hc
    obtain ⟨sub, hsub, hmem⟩ := mem_sent_step ht.inv hs hnew hsub'
    rcases hmem n hn with hn | hn
    · refine (ht.sent c sub hc hsub n hn).imp_left ?_
      rintro ⟨f, hf, hseq⟩
      exact ⟨f, hold f hf, hseq⟩
    · exact .inl (hadd c hc n hn)
  | noise =>
    refine ⟨ht.inv, ht.due, fun c sub hc hsub n hn => (ht.sent c sub hc hsub n hn).imp_left ?_⟩
    rintro ⟨f, hf, hseq⟩
    exact ⟨f, List.mem_append_left _ hf, hseq⟩
  | @dial c relay hs =>
    refine ⟨ht.inv.step hs, Feed.Due.step (e := .subscribe c) ht.due ht.inv trivial hs,
      fun c' sub hc hsub n hn => ?_⟩
    obtain rfl : c = c' := Option.some.inj hc
    rw [Relay.Feed.sent_of_subscribe hs hsub] at hn
    cases hn
  | @pass e c ping connected frames rx hattached hrx hframes =>
    refine ⟨ht.inv, ht.due, fun c' sub hc hsub n hn => ?_⟩
    rcases ht.sent c' sub (hattached.trans hc) hsub n hn with ⟨f, hf, hseq⟩ | hn | hn
    · exact (hframes f hf n hseq).elim (fun hf => .inl ⟨f, hf, hseq⟩) fun hn => .inr (.inl hn)
    · exact .inr (.inl (hrx n hn))
    · exact .inr (.inr hn)
  | dead hattached hrelay hrx =>
    refine ⟨hrelay ▸ ht.inv, hrelay ▸ ht.due, fun c sub hc => ?_⟩
    rw [hattached] at hc
    cases hc

/-- Another loop may have dealt with more. -/
theorem FeedLink.Tracked.mono {done done' : Nat → Prop} (ht : s.Tracked workspace done)
    (hdone : ∀ n, n ≤ s.relay.head → done n → done' n) : s.Tracked workspace done' := by
  refine ⟨ht.inv, ht.due, fun c sub hc hsub n hn => ?_⟩
  have hle := (ht.inv.within c sub hsub).sent n hn
  exact (ht.sent c sub hc hsub n hn).imp_right (·.imp_right (hdone n hle))

/-- The loop takes a number from the channel, and deals with it. -/
theorem FeedLink.Tracked.take {done : Nat → Prop} {rx : List Nat} (ht : s.Tracked workspace done)
    (hrx : ∀ n ∈ s.feed.rx, n ∈ rx ∨ done n) :
    FeedLink.Tracked workspace done { s with feed := { s.feed with rx } } := by
  refine ⟨ht.inv, ht.due, fun c sub hc hsub n hn => ?_⟩
  rcases ht.sent c sub hc hsub n hn with hn | hn | hn
  · exact .inl hn
  · exact .inr (hrx n hn)
  · exact .inr (.inr hn)

/-- **Over a connection that the relay serves the head is dealt with or on its way.** -/
theorem FeedLink.Tracked.coming {done : Nat → Prop} (ht : s.Tracked workspace done)
    (hserved : s.Served) : done s.relay.head ∨ s.Coming workspace := by
  obtain ⟨c, sub, hc, hsub⟩ := hserved
  have howes : sub.Owes s.relay.head → s.Coming workspace :=
    fun h => .inr (.inl ⟨c, sub, hc, hsub, h⟩)
  rcases ht.due c sub hsub with (hlag | hqueue | hsent | hphase | hphase) | hhinting
  · exact .inr (howes (.inl hlag))
  · exact .inr (howes (.inr (.inl hqueue)))
  · rcases ht.sent c sub hc hsub _ hsent with hframe | hrx | hdone
    · exact .inr (.inr (.inr (.inl hframe)))
    · exact .inr (.inr (.inr (.inr hrx)))
    · exact .inl hdone
  · exact .inr (howes (.inr (.inr (.inl hphase))))
  · exact .inr (howes (.inr (.inr (.inr hphase))))
  · exact .inr (.inl hhinting)

end

end Pear
