import Mathlib
import Pear.Lib.Maps
import Pear.Lib.Runs

/-!
# The head feed

A commit of a workspace's head is followed by a hint to its WebSocket subscribers. The pieces run in
different tasks: `put_head` commits in a blocking section under the database lock and notifies
afterwards, when its future is resumed; a subscription registers its receiver and then reads the head
in one section under the same lock, and sends what it read as `head_now` once the socket is upgraded;
a pump hands hints to the socket. `Feed.step` interleaves them for one workspace.

A blocking section outlives its handler: when the client disconnects in between, the future is
dropped, the commit happens and its hint is never sent (`commit_unhinted_when_dropped`). Where every
subscriber learns of such a commit on its own, none is left behind (`feed_reports_head`).
-/

namespace Pear.Relay

/-- Slots of a fan-out channel. -/
def headBroadcastCapacity : Nat := 8

/-- A `put_head` request: its section runs, it runs without a handler to resume, or it has committed
and the handler is about to notify. -/
inductive HeadPut
  | running
  | orphaned
  | committed (seq : Nat)
  deriving DecidableEq, Repr

/-- A subscription: registered and holding the database lock, with the head it has read, or past its
`head_now`. -/
inductive SubPhase
  | registered
  | upgrading (headSeq : Nat)
  | connected
  deriving DecidableEq, Repr

/-- A receiver of a broadcast channel. Once an unread message was overwritten, the next receive
reports `Lagged`. -/
structure Receiver where
  channel : Nat
  queue : List Nat := []
  lagged : Bool := false

/-- A message of the channel, which overwrites the oldest one of a full receiver. -/
def Receiver.push (rx : Receiver) (seq : Nat) : Receiver :=
  if rx.queue.length < headBroadcastCapacity then { rx with queue := rx.queue ++ [seq] }
  else { rx with queue := rx.queue.tail ++ [seq], lagged := true }

/-- A subscriber with the sequence numbers handed to its socket. -/
structure Subscriber where
  phase : SubPhase
  rx : Receiver
  sent : List Nat := []

/-- One workspace of the relay: its current head (0 for none), the subscription whose section holds
the database lock, the channel in the map (channels are numbered as they are created), the `put_head`
requests and the subscribers. -/
structure Feed where
  head : Nat
  dbLock : Option Nat
  channel : Option Nat
  channels : Nat
  puts : Std.ExtTreeMap Nat HeadPut compare
  subs : Std.ExtTreeMap Nat Subscriber compare

namespace Feed

/-- Live receivers of a channel. -/
def receiverCount (s : Feed) (ch : Nat) : Nat :=
  (s.subs.keys.filter fun c => s.subs[c]?.map (·.rx.channel) = some ch).length

/-- Fan a head commit out to the subscribers; a channel without receivers is dropped. -/
def notifyHeadChanged (s : Feed) (seq : Nat) : Feed :=
  match s.channel with
  | some ch =>
    if s.receiverCount ch = 0 then { s with channel := none }
    else { s with subs := s.subs.map fun _ sub =>
      if sub.rx.channel = ch then { sub with rx := sub.rx.push seq } else sub }
  | none => s

/-- Register a receiver, creating the channel on first use. -/
def subscribeHead (s : Feed) (c : Nat) : Feed :=
  let ch := s.channel.getD s.channels
  { s with
    channel := some ch
    channels := if s.channel = none then s.channels + 1 else s.channels
    subs := s.subs.insert c { phase := .registered, rx := { channel := ch } } }

end Feed

/-- A step: a `put_head` request arrives, commits, is refused, loses its client or notifies; a
subscription registers, reads the head (or fails to), sends `head_now`, receives a hint or goes away. -/
inductive FeedEvent
  | request (h : Nat)
  | commit (h : Nat)
  | refuse (h : Nat)
  | drop (h : Nat)
  | notify (h : Nat)
  | subscribe (c : Nat)
  | readHead (c : Nat) (ok : Bool)
  | greet (c : Nat)
  | recv (c : Nat)
  | disconnect (c : Nat)

/-- One step of the tasks of a workspace's feed. -/
def Feed.step (s : Feed) : FeedEvent → Option Feed
  | .request h =>
    match s.puts[h]? with
    | none => some { s with puts := s.puts.insert h .running }
    | some _ => none
  | .commit h =>
    if s.dbLock = none then
      match s.puts[h]? with
      | some .running =>
        some { s with head := s.head + 1, puts := s.puts.insert h (.committed (s.head + 1)) }
      | some .orphaned => some { s with head := s.head + 1, puts := s.puts.erase h }
      | _ => none
    else none
  | .refuse h =>
    match s.puts[h]? with
    | some .running | some .orphaned => some { s with puts := s.puts.erase h }
    | _ => none
  | .drop h =>
    match s.puts[h]? with
    | some .running => some { s with puts := s.puts.insert h .orphaned }
    | some (.committed _) => some { s with puts := s.puts.erase h }
    | _ => none
  | .notify h =>
    match s.puts[h]? with
    | some (.committed seq) => some ({ s with puts := s.puts.erase h }.notifyHeadChanged seq)
    | _ => none
  | .subscribe c =>
    match s.dbLock, s.subs[c]? with
    | none, none => some { s.subscribeHead c with dbLock := some c }
    | _, _ => none
  | .readHead c ok =>
    match s.subs[c]? with
    | some sub =>
      if s.dbLock = some c then
        if ok then
          some { s with
            dbLock := none
            subs := s.subs.insert c { sub with phase := .upgrading s.head } }
        else some { s with dbLock := none, subs := s.subs.erase c }
      else none
    | none => none
  | .greet c =>
    match s.subs[c]? with
    | some sub =>
      match sub.phase with
      | .upgrading headSeq =>
        let sub := { sub with phase := .connected, sent := sub.sent ++ [headSeq] }
        some { s with subs := s.subs.insert c sub }
      | _ => none
    | none => none
  | .recv c =>
    match s.subs[c]? with
    | some sub =>
      if sub.phase = .connected then
        if sub.rx.lagged then some { s with subs := s.subs.erase c }
        else match sub.rx.queue with
          | seq :: queue =>
            let rx := { sub.rx with queue := queue }
            some { s with subs := s.subs.insert c { sub with rx := rx, sent := sub.sent ++ [seq] } }
          | [] =>
            -- `Closed`: the sender of its channel is gone.
            if s.channel = some sub.rx.channel then none
            else some { s with subs := s.subs.erase c }
      else none
    | none => none
  | .disconnect c =>
    if s.dbLock = some c then none
    else match s.subs[c]? with
      | some _ => some { s with subs := s.subs.erase c }
      | none => none

/-- A workspace with a head and no traffic yet. -/
def Feed.boot (head : Nat) : Feed where
  head := head
  dbLock := none
  channel := none
  channels := 0
  puts := ∅
  subs := ∅

/-- No handler or blocking section is running. -/
def Feed.Quiet (s : Feed) : Prop :=
  s.dbLock = none ∧ ∀ h : Nat, s.puts[h]? = none

/-- The subscriber is connected and its receiver is empty. -/
def Subscriber.Drained (sub : Subscriber) : Prop :=
  sub.phase = .connected ∧ sub.rx.queue = [] ∧ sub.rx.lagged = false

/-- The subscriber was told of a sequence number, will be, or is about to be closed: it has read it
or will read the head, or has it in its receiver. -/
def Subscriber.Learns (sub : Subscriber) (seq : Nat) : Prop :=
  sub.rx.lagged = true ∨ seq ∈ sub.rx.queue ∨ seq ∈ sub.sent ∨ sub.phase = .registered ∨
    sub.phase = .upgrading seq

/-- No hint is lost on a subscriber: when a handler's future is dropped after the commit of the
current head, or a section without a handler commits, every subscriber learns of that commit by
itself. -/
def Feed.Lossless (s : Feed) : FeedEvent → Prop
  | .drop h => s.puts[h]? = some (.committed s.head) →
      ∀ (c : Nat) (sub : Subscriber), s.subs[c]? = some sub → sub.Learns s.head
  | .commit h => s.puts[h]? = some .orphaned →
      ∀ (c : Nat) (sub : Subscriber), s.subs[c]? = some sub → sub.Learns (s.head + 1)
  | _ => True

/-! ## Receivers -/

section
variable {rx : Receiver} {sub : Subscriber} {m n : Nat}

@[simp] theorem Receiver.push_channel (rx : Receiver) (n : Nat) :
    (rx.push n).channel = rx.channel := by
  unfold push
  split <;> rfl

/-- What a receiver holds after a message. -/
theorem Receiver.mem_push (h : m ∈ (rx.push n).queue) : m ∈ rx.queue ∨ m = n := by
  unfold push at h
  split at h
  · exact (List.mem_append.mp h).imp_right List.mem_singleton.mp
  · exact (List.mem_append.mp h).imp List.mem_of_mem_tail List.mem_singleton.mp

/-- The message itself is there. -/
theorem Receiver.mem_push_self (rx : Receiver) (n : Nat) : n ∈ (rx.push n).queue := by
  unfold push
  split <;> simp

/-- An older message stays, or the receiver lags. -/
theorem Receiver.keeps_push (h : m ∈ rx.queue) :
    (rx.push n).lagged = true ∨ m ∈ (rx.push n).queue := by
  unfold push
  split
  · exact .inr (List.mem_append_left _ h)
  · exact .inl rfl

/-- A lagging receiver stays one. -/
theorem Receiver.lagged_push (h : rx.lagged = true) : (rx.push n).lagged = true := by
  unfold push
  split
  · exact h
  · rfl

/-- A message takes nothing from what its receiver will learn. -/
theorem Subscriber.Learns.push (h : sub.Learns m) :
    { sub with rx := sub.rx.push n }.Learns m := by
  rcases h with hlag | hq | hrest
  · exact .inl (Receiver.lagged_push hlag)
  · exact (Receiver.keeps_push hq).imp_right .inl
  · exact .inr (.inr hrest)

/-- A connected subscriber with nothing to receive was sent what it has learnt. -/
theorem Subscriber.Learns.sent (h : sub.Learns m) (hd : sub.Drained) : m ∈ sub.sent := by
  obtain ⟨hphase, hqueue, hlag⟩ := hd
  rcases h with h | h | h | h | h
  · rw [hlag] at h
    cases h
  · rw [hqueue] at h
    cases h
  · exact h
  · rw [hphase] at h
    cases h
  · rw [hphase] at h
    cases h

end

/-! ## Steps of the feed -/

/-- A committed request is still going to send this hint. -/
def Feed.Hinting (s : Feed) (seq : Nat) : Prop :=
  ∃ h : Nat, s.puts[h]? = some (.committed seq)

section
variable {s s' : Feed} {e : FeedEvent} {c : Nat} {sub : Subscriber} {n : Nat}

/-- What a step does. A request that neither commits nor had committed, and a subscription that ends,
whatever ends it, are one case each. -/
inductive FeedMove (s : Feed) : FeedEvent → Feed → Prop
  | idle {e : FeedEvent} {puts : Std.ExtTreeMap Nat HeadPut compare}
    (hputs : ∀ (h n : Nat), puts[h]? = some (.committed n) ↔ s.puts[h]? = some (.committed n)) :
    FeedMove s e { s with puts }
  | commit {h : Nat} (hp : s.puts[h]? = some .running) :
    FeedMove s (.commit h)
      { s with head := s.head + 1, puts := s.puts.insert h (.committed (s.head + 1)) }
  | commitOrphaned {h : Nat} (hp : s.puts[h]? = some .orphaned) :
    FeedMove s (.commit h) { s with head := s.head + 1, puts := s.puts.erase h }
  | dropHint {h n : Nat} (hp : s.puts[h]? = some (.committed n)) :
    FeedMove s (.drop h) { s with puts := s.puts.erase h }
  | notify {h n : Nat} (hp : s.puts[h]? = some (.committed n)) :
    FeedMove s (.notify h) ({ s with puts := s.puts.erase h }.notifyHeadChanged n)
  | subscribe {c : Nat} (hc : s.subs[c]? = none) :
    FeedMove s (.subscribe c) { s.subscribeHead c with dbLock := some c }
  | readHead {c : Nat} {sub : Subscriber} (hc : s.subs[c]? = some sub) :
    FeedMove s (.readHead c true)
      { s with dbLock := none, subs := s.subs.insert c { sub with phase := .upgrading s.head } }
  | greet {c headSeq : Nat} {sub : Subscriber} (hc : s.subs[c]? = some sub)
    (hphase : sub.phase = .upgrading headSeq) :
    FeedMove s (.greet c)
      { s with
        subs := s.subs.insert c { sub with phase := .connected, sent := sub.sent ++ [headSeq] } }
  | recv {c seq : Nat} {queue : List Nat} {sub : Subscriber} (hc : s.subs[c]? = some sub)
    (hphase : sub.phase = .connected) (hq : sub.rx.queue = seq :: queue) :
    FeedMove s (.recv c) { s with
      subs := s.subs.insert c
        { sub with rx := { sub.rx with queue := queue }, sent := sub.sent ++ [seq] } }
  | gone {e : FeedEvent} {c : Nat} {lock : Option Nat} :
    FeedMove s e { s with dbLock := lock, subs := s.subs.erase c }

/-- A request that has not committed moves on or ends: the committed ones are the same. -/
theorem committed_insert_iff {m : Std.ExtTreeMap Nat HeadPut compare} {h : Nat} {put : HeadPut}
    (hput : ∀ n, put ≠ .committed n) (hm : ∀ n, m[h]? ≠ some (.committed n)) (h' n : Nat) :
    (m.insert h put)[h']? = some (.committed n) ↔ m[h']? = some (.committed n) := by
  rw [Lib.getElem?_insert_eq]
  split
  · rename_i he
    subst he
    exact iff_of_false (fun heq => hput n (Option.some.inj heq)) (hm n)
  · rfl

theorem committed_erase_iff {m : Std.ExtTreeMap Nat HeadPut compare} {h : Nat}
    (hm : ∀ n, m[h]? ≠ some (.committed n)) (h' n : Nat) :
    (m.erase h)[h']? = some (.committed n) ↔ m[h']? = some (.committed n) := by
  rw [Lib.getElem?_erase_eq]
  split
  · rename_i he
    subst he
    exact iff_of_false (fun heq => nomatch heq) (hm n)
  · rfl

/-- **Every step is one of these.** -/
theorem Feed.move_of_step (hs : s.step e = some s') : FeedMove s e s' := by
  cases e with
  | request h =>
    simp only [step] at hs
    split at hs
    · rename_i hp
      cases hs
      exact .idle (committed_insert_iff (fun n => nofun) (fun n => by simp [hp]))
    · cases hs
  | commit h =>
    simp only [step] at hs
    split at hs
    · split at hs
      · rename_i hp
        cases hs
        exact .commit hp
      · rename_i hp
        cases hs
        exact .commitOrphaned hp
      · cases hs
    · cases hs
  | refuse h =>
    simp only [step] at hs
    split at hs
    · rename_i hp
      cases hs
      exact .idle (committed_erase_iff fun n => by simp [hp])
    · rename_i hp
      cases hs
      exact .idle (committed_erase_iff fun n => by simp [hp])
    · cases hs
  | drop h =>
    simp only [step] at hs
    split at hs
    · rename_i hp
      cases hs
      exact .idle (committed_insert_iff (fun n => nofun) (fun n => by simp [hp]))
    · rename_i hp
      cases hs
      exact .dropHint hp
    · cases hs
  | notify h =>
    simp only [step] at hs
    split at hs
    · rename_i hp
      cases hs
      exact .notify hp
    · cases hs
  | subscribe c =>
    simp only [step] at hs
    split at hs
    · rename_i hc
      cases hs
      exact .subscribe hc
    · cases hs
  | readHead c ok =>
    simp only [step] at hs
    split at hs
    · rename_i hc
      split at hs
      · cases ok with
        | true =>
          cases hs
          exact .readHead hc
        | false =>
          cases hs
          exact .gone
      · cases hs
    · cases hs
  | greet c =>
    simp only [step] at hs
    split at hs
    · rename_i hc
      split at hs
      · rename_i hphase
        cases hs
        exact .greet hc hphase
      · cases hs
    · cases hs
  | recv c =>
    simp only [step] at hs
    split at hs
    · rename_i hc
      split at hs
      · rename_i hphase
        split at hs
        · cases hs
          exact .gone
        · split at hs
          · rename_i hq
            cases hs
            exact .recv hc hphase hq
          · split at hs
            · cases hs
            · cases hs
              exact .gone
      · cases hs
    · cases hs
  | disconnect c =>
    simp only [step] at hs
    split at hs
    · cases hs
    · split at hs
      · cases hs
        exact .gone
      · cases hs

/-! ## No subscriber is left behind -/

/-- Nothing a subscriber has or was sent is beyond a head. -/
structure Subscriber.Within (sub : Subscriber) (head : Nat) : Prop where
  queue : ∀ n ∈ sub.rx.queue, n ≤ head
  sent : ∀ n ∈ sub.sent, n ≤ head
  read : ∀ n, sub.phase = .upgrading n → n ≤ head

/-- What holds of every reachable feed: every subscriber's receiver is on the channel in the map, and
no sequence number on its way is beyond the head. -/
structure FeedInv (s : Feed) : Prop where
  onChannel : ∀ (c : Nat) (sub : Subscriber), s.subs[c]? = some sub →
    s.channel = some sub.rx.channel
  hints : ∀ n, s.Hinting n → n ≤ s.head
  within : ∀ (c : Nat) (sub : Subscriber), s.subs[c]? = some sub → sub.Within s.head

/-- A later head is beyond nothing either. -/
theorem Subscriber.Within.mono {head head' : Nat} (h : sub.Within head) (hle : head ≤ head') :
    sub.Within head' :=
  ⟨fun n hn => (h.queue n hn).trans hle, fun n hn => (h.sent n hn).trans hle,
    fun n hn => (h.read n hn).trans hle⟩

/-- A message that is not beyond the head. -/
theorem Subscriber.Within.push {head : Nat} (h : sub.Within head) (hn : n ≤ head) :
    { sub with rx := sub.rx.push n }.Within head := by
  refine ⟨fun m hm => ?_, h.sent, h.read⟩
  rcases Receiver.mem_push hm with hm | rfl
  · exact h.queue m hm
  · exact hn

/-- A notification reaches every subscriber, or there is none. -/
theorem Feed.notifyHeadChanged_subs
    (hon : ∀ (c : Nat) (sub : Subscriber), s.subs[c]? = some sub → s.channel = some sub.rx.channel)
    (n : Nat) {c : Nat} {sub' : Subscriber} (h : (s.notifyHeadChanged n).subs[c]? = some sub') :
    (s.notifyHeadChanged n).channel = s.channel ∧
      ∃ sub, s.subs[c]? = some sub ∧ sub' = { sub with rx := sub.rx.push n } := by
  unfold notifyHeadChanged at h ⊢
  split at h
  · rename_i ch hch
    split at h
    · rename_i hcount
      -- The channel is pruned: but the subscriber's receiver is on it.
      have hsub := hon c sub' h
      rw [hch] at hsub
      obtain rfl := Option.some.inj hsub
      have hnil := List.length_eq_zero_iff.mp hcount
      have hmem : c ∈ s.subs.keys.filter fun c =>
          s.subs[c]?.map (·.rx.channel) = some sub'.rx.channel := by
        refine List.mem_filter.mpr ⟨Lib.mem_keys_iff.mpr ?_, ?_⟩
        · have h : s.subs[c]? = some sub' := h
          simp [h]
        · have h : s.subs[c]? = some sub' := h
          simp [h]
      rw [hnil] at hmem
      cases hmem
    · rename_i hcount
      rw [if_neg hcount]
      refine ⟨rfl, ?_⟩
      rw [Std.ExtTreeMap.getElem?_map] at h
      obtain ⟨sub, hc, hsub⟩ := Option.map_eq_some_iff.mp h
      rw [if_pos (Option.some.inj ((hon c sub hc).symm.trans hch))] at hsub
      exact ⟨sub, hc, hsub.symm⟩
  · rename_i hch
    have := hon c sub' h
    rw [hch] at this
    cases this

@[simp] theorem Feed.notifyHeadChanged_head (s : Feed) (n : Nat) :
    (s.notifyHeadChanged n).head = s.head := by
  unfold notifyHeadChanged
  split
  · split <;> rfl
  · rfl

@[simp] theorem Feed.notifyHeadChanged_puts (s : Feed) (n : Nat) :
    (s.notifyHeadChanged n).puts = s.puts := by
  unfold notifyHeadChanged
  split
  · split <;> rfl
  · rfl

/-- A subscriber takes the place of itself, on its channel and with nothing beyond the head. -/
theorem FeedInv.setSub {c : Nat} {sub sub' : Subscriber} {lock : Option Nat} (h : FeedInv s)
    (hc : s.subs[c]? = some sub) (hch : sub'.rx.channel = sub.rx.channel)
    (hw : sub'.Within s.head) :
    FeedInv { s with dbLock := lock, subs := s.subs.insert c sub' } := by
  refine ⟨fun c' x hx => ?_, h.hints, fun c' x hx => ?_⟩
  · rcases Lib.getElem?_insert_cases hx with ⟨rfl, rfl⟩ | ⟨-, hx⟩
    · exact (h.onChannel c' sub hc).trans (congrArg some hch.symm)
    · exact h.onChannel c' x hx
  · rcases Lib.getElem?_insert_cases hx with ⟨rfl, rfl⟩ | ⟨-, hx⟩
    · exact hw
    · exact h.within c' x hx

/-- **Every step keeps the invariant.** -/
theorem FeedInv.step (h : FeedInv s) (hs : s.step e = some s') : FeedInv s' := by
  cases Feed.move_of_step hs with
  | idle hputs =>
    exact ⟨h.onChannel, fun n ⟨h', hn⟩ => h.hints n ⟨h', (hputs h' n).mp hn⟩, h.within⟩
  | @commit hd hp =>
    refine ⟨h.onChannel, fun n ⟨h', hn⟩ => ?_, fun c sub hc => (h.within c sub hc).mono (by simp)⟩
    rcases Lib.getElem?_insert_cases hn with ⟨-, heq⟩ | ⟨-, hn⟩
    · cases heq
      exact le_refl _
    · exact (h.hints n ⟨h', hn⟩).trans (Nat.le_succ _)
  | commitOrphaned hp =>
    exact ⟨h.onChannel, fun n ⟨h', hn⟩ => (h.hints n ⟨h', (Lib.getElem?_of_erase hn).2⟩).trans
      (Nat.le_succ _), fun c sub hc => (h.within c sub hc).mono (by simp)⟩
  | dropHint hp =>
    exact ⟨h.onChannel, fun n ⟨h', hn⟩ => h.hints n ⟨h', (Lib.getElem?_of_erase hn).2⟩, h.within⟩
  | @notify hd n hp =>
    have hle : n ≤ s.head := h.hints n ⟨hd, hp⟩
    refine ⟨fun c sub' hc => ?_, fun m ⟨h', hm⟩ => ?_, fun c sub' hc => ?_⟩
    · obtain ⟨hch, sub, hsub, rfl⟩ := Feed.notifyHeadChanged_subs (s := { s with puts := s.puts.erase hd }) h.onChannel n hc
      rw [hch, Receiver.push_channel]
      exact h.onChannel c sub hsub
    · rw [Feed.notifyHeadChanged_puts] at hm
      rw [Feed.notifyHeadChanged_head]
      exact h.hints m ⟨h', (Lib.getElem?_of_erase hm).2⟩
    · obtain ⟨-, sub, hsub, rfl⟩ := Feed.notifyHeadChanged_subs (s := { s with puts := s.puts.erase hd }) h.onChannel n hc
      rw [Feed.notifyHeadChanged_head]
      exact (h.within c sub hsub).push hle
  | @subscribe c hc =>
    refine ⟨fun c' sub hsub => ?_, h.hints, fun c' sub hsub => ?_⟩
    · rcases Lib.getElem?_insert_cases hsub with ⟨rfl, rfl⟩ | ⟨-, hsub⟩
      · rfl
      · have := h.onChannel c' sub hsub
        simp [Feed.subscribeHead, this]
    · rcases Lib.getElem?_insert_cases hsub with ⟨rfl, rfl⟩ | ⟨-, hsub⟩
      · exact ⟨by simp, by simp, by simp⟩
      · exact h.within c' sub hsub
  | @readHead c sub hc =>
    have hw := h.within c sub hc
    refine h.setSub hc rfl ⟨hw.queue, hw.sent, fun n hn => ?_⟩
    cases hn
    exact le_refl _
  | @greet c headSeq sub hc hphase =>
    have hw := h.within c sub hc
    refine h.setSub hc rfl ⟨hw.queue, fun n hn => ?_, fun n hn => nomatch hn⟩
    rcases List.mem_append.mp hn with hn | hn
    · exact hw.sent n hn
    · obtain rfl := List.mem_singleton.mp hn
      exact hw.read n hphase
  | @recv c seq queue sub hc hphase hq =>
    have hw := h.within c sub hc
    refine h.setSub hc rfl ⟨fun n hn => hw.queue n (by rw [hq]; exact List.mem_cons_of_mem _ hn),
      fun n hn => ?_, hw.read⟩
    rcases List.mem_append.mp hn with hn | hn
    · exact hw.sent n hn
    · obtain rfl := List.mem_singleton.mp hn
      exact hw.queue n (by rw [hq]; exact List.mem_cons_self)
  | gone =>
    exact ⟨fun c sub hc => h.onChannel c sub (Lib.getElem?_of_erase hc).2, h.hints,
      fun c sub hc => h.within c sub (Lib.getElem?_of_erase hc).2⟩

/-- Every subscriber learns of the head, or a request is still going to send its hint. -/
def Feed.Due (s : Feed) : Prop :=
  ∀ (c : Nat) (sub : Subscriber), s.subs[c]? = some sub → sub.Learns s.head ∨ s.Hinting s.head

/-- **A step that loses no hint leaves none due.** -/
theorem Feed.Due.step (h : s.Due) (hinv : FeedInv s) (hl : s.Lossless e) (hs : s.step e = some s') :
    s'.Due := by
  cases Feed.move_of_step hs with
  | idle hputs =>
    exact fun c sub hc => (h c sub hc).imp_right fun ⟨h', hn⟩ => ⟨h', (hputs h' _).mpr hn⟩
  | @commit hd hp =>
    exact fun c sub hc => .inr ⟨hd, by simp⟩
  | commitOrphaned hp =>
    exact fun c sub hc => .inl (hl hp c sub hc)
  | @dropHint hd n hp =>
    intro c sub hc
    by_cases hn : n = s.head
    · exact .inl (hl (hn ▸ hp) c sub hc)
    · refine (h c sub hc).imp_right fun ⟨h', hn'⟩ => ⟨h', ?_⟩
      dsimp only
      rw [Lib.getElem?_erase_eq, if_neg, hn']
      rintro rfl
      rw [hp] at hn'
      exact hn (HeadPut.committed.inj (Option.some.inj hn'))
  | @notify hd n hp =>
    intro c sub' hc
    obtain ⟨-, sub, hsub, rfl⟩ := Feed.notifyHeadChanged_subs (s := { s with puts := s.puts.erase hd }) hinv.onChannel n hc
    rw [Feed.notifyHeadChanged_head]
    dsimp only
    rcases h c sub hsub with hlearns | ⟨h', hn'⟩
    · exact .inl hlearns.push
    · by_cases he : hd = h'
      · subst he
        rw [hp] at hn'
        obtain rfl := HeadPut.committed.inj (Option.some.inj hn')
        exact .inl (.inr (.inl (Receiver.mem_push_self _ _)))
      · refine .inr ⟨h', ?_⟩
        rw [Feed.notifyHeadChanged_puts]
        exact (Lib.getElem?_erase_eq _ _ _).trans ((if_neg he).trans hn')
  | @subscribe c hc =>
    intro c' sub hsub
    rcases Lib.getElem?_insert_cases hsub with ⟨rfl, rfl⟩ | ⟨-, hsub⟩
    · exact .inl (.inr (.inr (.inr (.inl rfl))))
    · exact h c' sub hsub
  | @readHead c sub hc =>
    intro c' sub' hsub
    rcases Lib.getElem?_insert_cases hsub with ⟨rfl, rfl⟩ | ⟨-, hsub⟩
    · exact .inl (.inr (.inr (.inr (.inr rfl))))
    · exact h c' sub' hsub
  | @greet c headSeq sub hc hphase =>
    intro c' sub' hsub
    rcases Lib.getElem?_insert_cases hsub with ⟨rfl, rfl⟩ | ⟨-, hsub⟩
    · refine (h c' sub hc).imp_left fun hlearns => ?_
      rcases hlearns with hlag | hq | hsent | hreg | hread
      · exact .inl hlag
      · exact .inr (.inl hq)
      · exact .inr (.inr (.inl (List.mem_append_left _ hsent)))
      · rw [hphase] at hreg
        cases hreg
      · rw [hphase] at hread
        cases hread
        exact .inr (.inr (.inl (by simp)))
    · exact h c' sub' hsub
  | @recv c seq queue sub hc hphase hq =>
    intro c' sub' hsub
    rcases Lib.getElem?_insert_cases hsub with ⟨rfl, rfl⟩ | ⟨-, hsub⟩
    · refine (h c' sub hc).imp_left fun hlearns => ?_
      rcases hlearns with hlag | hin | hsent | hrest
      · exact .inl hlag
      · rw [hq] at hin
        rcases List.mem_cons.mp hin with heq | hin
        · exact .inr (.inr (.inl (by simp [heq])))
        · exact .inr (.inl hin)
      · exact .inr (.inr (.inl (List.mem_append_left _ hsent)))
      · exact .inr (.inr (.inr hrest))
    · exact h c' sub' hsub
  | gone =>
    exact fun c sub hc => h c sub (Lib.getElem?_of_erase hc).2

end

/-- **The head feed leaves no commit unreported.** In every run in which no hint is lost on a
subscriber: whenever no handler or blocking section is running, a connected subscriber with nothing to
receive has been sent the sequence number of the head; and at no time was a number beyond the head
sent. -/
theorem feed_reports_head {head : Nat} {es : List FeedEvent} {s : Feed}
    (run : Lib.Run Feed.step Feed.Lossless (.boot head) es s) :
    (s.Quiet → ∀ (c : Nat) (sub : Subscriber), s.subs[c]? = some sub → sub.Drained →
      s.head ∈ sub.sent) ∧
    ∀ (c : Nat) (sub : Subscriber), s.subs[c]? = some sub → ∀ n ∈ sub.sent, n ≤ s.head := by
  have hboot : FeedInv (.boot head) ∧ (Feed.boot head).Due :=
    ⟨⟨fun c sub hc => by simp [Feed.boot] at hc, fun n ⟨h, hn⟩ => by simp [Feed.boot] at hn,
      fun c sub hc => by simp [Feed.boot] at hc⟩, fun c sub hc => by simp [Feed.boot] at hc⟩
  obtain ⟨hinv, hdue⟩ : FeedInv s ∧ s.Due :=
    run.invariant (I := fun s => FeedInv s ∧ s.Due)
      (fun _ _ _ hi hl hs => ⟨hi.1.step hs, hi.2.step hi.1 hl hs⟩) hboot
  refine ⟨fun hquiet c sub hc hd => ?_, fun c sub hc => (hinv.within c sub hc).sent⟩
  rcases hdue c sub hc with hlearns | ⟨h, hn⟩
  · exact hlearns.sent hd
  · rw [hquiet.2 h] at hn
    cases hn

/-- `Lossless` as a check: no future is dropped after the commit of the current head, and no section
without a handler commits. -/
def Feed.lossless (s : Feed) : FeedEvent → Bool
  | .drop h => s.puts[h]? ≠ some (.committed s.head)
  | .commit h => s.puts[h]? ≠ some .orphaned
  | _ => true

/-- What passes the check loses no hint. -/
theorem Feed.lossless_of_check (s : Feed) (e : FeedEvent) (h : s.lossless e = true) :
    s.Lossless e := by
  cases e with
  | drop i => exact fun hp => absurd hp (of_decide_eq_true h)
  | commit i => exact fun hp => absurd hp (of_decide_eq_true h)
  | request | refuse | notify | subscribe | readHead | greet | recv | disconnect => trivial

/-- A subscriber receives the hint of a commit. -/
theorem feed_reports_head_one : ∃ s : Feed,
    (s.head, s.dbLock, s.puts.toList.length, s.subs[0]?.map (·.sent)) = (1, none, 0, some [0, 1]) ∧
    ∀ (c : Nat) (sub : Subscriber), s.subs[c]? = some sub → ∀ n ∈ sub.sent, n ≤ s.head := by
  have hrun : ((Lib.replay (fun s e => if Feed.lossless s e then s.step e else none) (.boot 0)
      [.subscribe 0, .readHead 0 true, .greet 0, .request 0, .commit 0, .notify 0, .recv 0]).map
      fun s => (s.head, s.dbLock, s.puts.toList.length, s.subs[0]?.map (·.sent))) =
      some (1, none, 0, some [0, 1]) := by
    decide
  obtain ⟨s, hs, hfacts⟩ := Option.map_eq_some_iff.mp hrun
  exact ⟨s, hfacts, (feed_reports_head (.of_replay_if Feed.lossless_of_check hs)).2⟩

/-- The client of a `put_head` disconnects while its section waits for the lock: the head is
committed, nobody notifies, and a connected subscriber is left at the head before it. -/
theorem commit_unhinted_when_dropped : ∃ s : Feed,
    Lib.Run Feed.step (fun _ _ => True) (.boot 0)
      [.subscribe 0, .readHead 0 true, .greet 0, .request 0, .drop 0, .commit 0] s ∧
    s.Quiet ∧ ∃ sub : Subscriber, s.subs[0]? = some sub ∧ sub.Drained ∧ s.head ∉ sub.sent := by
  have hrun : ((Lib.replay Feed.step (.boot 0)
      [.subscribe 0, .readHead 0 true, .greet 0, .request 0, .drop 0, .commit 0]).map fun s =>
      (s.dbLock, s.puts.keys, s.head)) = some (none, [], 1) := by
    decide
  have hone : ((Lib.replay Feed.step (.boot 0)
      [.subscribe 0, .readHead 0 true, .greet 0, .request 0, .drop 0, .commit 0]).bind fun s =>
      s.subs[0]?.map fun sub => (sub.phase, sub.rx.queue, sub.rx.lagged, sub.sent)) =
      some (.connected, [], false, [0]) := by
    decide
  obtain ⟨s, hs, hfacts⟩ := Option.map_eq_some_iff.mp hrun
  rw [hs] at hone
  obtain ⟨hlock, hputs, hhead⟩ : _ ∧ _ ∧ _ := by simpa only [Prod.mk.injEq] using hfacts
  obtain ⟨sub, hsub, hsent⟩ := Option.map_eq_some_iff.mp hone
  obtain ⟨hphase, hqueue, hlag, hsent⟩ : _ ∧ _ ∧ _ ∧ _ := by
    simpa only [Prod.mk.injEq] using hsent
  have hnone : ∀ h : Nat, s.puts[h]? = none := fun h => by
    by_contra hne
    have hmem := Lib.mem_keys_iff.mpr hne
    rw [hputs] at hmem
    cases hmem
  exact ⟨s, Lib.Run.of_replay (fun _ _ _ => trivial) hs, ⟨hlock, hnone⟩, sub, hsub,
    ⟨hphase, hqueue, hlag⟩, by simp [hhead, hsent]⟩

end Pear.Relay
