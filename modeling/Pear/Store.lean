import Pear.LocalSync

/-!
# The local chunk store

`LocalStore` (`store.rs`) as all threads and processes that have a store open share it: its chunk files,
the temporaries that puts write before they rename them, and the calls that are under way, each before
its next system call (`StoreTask`). A step performs one system call of one task, or lets it fail; a call
may begin at any time, a process may be killed at any time, and the clock may go on. So a run of
`StoreSystem.step` is an interleaving of any number of puts, gets, presence checks and sweeps. A power
loss ends a run; the next begins over whatever files it has left.

What a system call can be is said once (`TaskStep`), and so is what it does to the files (`TaskMove`).
-/

namespace Pear

/-! ## Files and calls -/

/-- `<root>/chunks`: the files under chunk names, and the temporaries with their modification times. -/
structure StoreDir where
  chunks : Std.ExtTreeMap Text Bytes compare
  temps : Std.ExtTreeMap Text (Bytes × Int) compare
  now : Int

/-- A put, with the path of its temporary, in which it draws a random number. -/
structure PutCall where
  hash : Text
  data : Bytes
  tmp : Text
  deferred : Bool
deriving DecidableEq

/-- A call of the store's interface; `sweepTmp` is a part of `open`. -/
inductive StoreRequest where
  | get (hash : Text)
  | has (hash : Text)
  | put (p : PutCall)
  | sweep (keep : List Text)
  | sweepTmp

/-- Where a call stands: the system call it is about to make. -/
inductive StoreTask where
  /-- `fs::read` of the chunk, and its removal when it fails verification -/
  | getRead (hash : Text)
  | getRemove (hash : Text)
  | hasCheck (hash : Text)
  /-- `dest.exists()`, `create_dir_all`, `create_private_file`, `write_all` of what is left, `sync_all`,
  `rename`, and the flush of a deferred store whose queue is full -/
  | putCheck (p : PutCall)
  | putDir (p : PutCall)
  | putCreate (p : PutCall)
  | putWrite (p : PutCall) (left : Bytes)
  | putSync (p : PutCall)
  | putRename (p : PutCall)
  | putFlush (p : PutCall)
  /-- the next entry of the listing, and `remove_file` of the one at hand, with its length -/
  | sweepVisit (keep : List Text) (deleted bytes : Nat)
  | sweepRemove (keep : List Text) (deleted bytes : Nat) (name : Text) (length : Nat)
  | tmpVisit (staleBefore : Int)
  | tmpRemove (staleBefore : Int) (tmp : Text)
deriving DecidableEq

/-- What a call answers. -/
inductive StoreAnswer where
  | got (hash : Text) (data : Bytes)
  /-- "chunk {hash} failed verification and was removed", or not there -/
  | notFound (hash : Text)
  | has (hash : Text) (present : Bool)
  | put (hash : Text) (written : Bool)
  | swept (deleted bytes : Nat)
  | opened
  /-- any other I/O error, a name that is none, or bytes that do not hash to their name -/
  | failed
deriving DecidableEq

/-- How a system call comes out: it fails, it writes so many bytes, it finds this entry, or it is simply
done; a listing that is done has ended. -/
inductive StoreOutcome where
  | fails
  | wrote (n : Nat)
  | found (name : Text)
  | done
deriving DecidableEq

/-! ## The calls -/

/-- The check of `chunk_path`. -/
def chunkPathOk (hash : Text) : Bool := 2 ≤ hash.length && hash.all (·.isHexDigit)

/-- `sweep_tmp` takes a temporary for stale after so many seconds. -/
def staleTmpSecs : Int := 60

/-- The temporary of a put. -/
def StoreTask.tmp? : StoreTask → Option Text
  | putCheck p | putDir p | putCreate p | putWrite p _ | putSync p | putRename p | putFlush p => some p.tmp
  | _ => none

section
variable (blake3 : Bytes → Text)

/-- What a call does before its first system call. -/
def StoreRequest.begin (now : Int) : StoreRequest → StoreTask ⊕ StoreAnswer
  | get hash => if chunkPathOk hash then .inl (.getRead hash) else .inr .failed
  | has hash => if chunkPathOk hash then .inl (.hasCheck hash) else .inr .failed
  | put p => if blake3 p.data = p.hash ∧ chunkPathOk p.hash then .inl (.putCheck p) else .inr .failed
  | sweep keep => .inl (.sweepVisit keep 0 0)
  | sweepTmp => .inl (.tmpVisit (now - staleTmpSecs))

/-- A system call that fails: a get and the sweep of the temporaries ignore it when they remove. -/
def StoreTask.fails : StoreTask → StoreTask ⊕ StoreAnswer
  | getRemove hash => .inr (.notFound hash)
  | tmpRemove before _ => .inl (.tmpVisit before)
  | tmpVisit _ => .inr .opened
  | hasCheck hash => .inr (.has hash false)
  | putCheck p => .inl (.putDir p)
  | _ => .inr .failed

/-- A system call that is done, with what is next, or the answer. -/
def StoreTask.run (d : StoreDir) : StoreTask → StoreOutcome → Option ((StoreTask ⊕ StoreAnswer) × StoreDir)
  | t, .fails => some (t.fails, d)
  | getRead hash, .done =>
    match d.chunks[hash]? with
    | none => some (.inr (.notFound hash), d)
    | some data =>
      if blake3 data = hash then some (.inr (.got hash data), d) else some (.inl (.getRemove hash), d)
  | getRemove hash, .done => some (.inr (.notFound hash), { d with chunks := d.chunks.erase hash })
  | hasCheck hash, .done => some (.inr (.has hash (d.chunks.contains hash)), d)
  | putCheck p, .done =>
    if d.chunks.contains p.hash then some (.inr (.put p.hash false), d) else some (.inl (.putDir p), d)
  | putDir p, .done => some (.inl (.putCreate p), d)
  | putCreate p, .done =>
    some (.inl (.putWrite p p.data), { d with temps := d.temps.insert p.tmp ([], d.now) })
  | putWrite p left, .wrote n =>
    if 0 < n ∧ n ≤ left.length then
      some (.inl (.putWrite p (left.drop n)),
        { d with temps := d.temps.modify p.tmp fun f => (f.1 ++ left.take n, d.now) })
    else none
  | putWrite p [], .done => some (.inl (if p.deferred then .putRename p else .putSync p), d)
  | putSync p, .done => some (.inl (.putRename p), d)
  | putRename p, .done =>
    match d.temps[p.tmp]? with
    | none => some (.inr .failed, d)
    | some (data, _) =>
      some (if p.deferred then .inl (.putFlush p) else .inr (.put p.hash true),
        { d with chunks := d.chunks.insert p.hash data, temps := d.temps.erase p.tmp })
  -- Whether the queue is full is not modelled: a put that need not flush is one whose flush is done.
  | putFlush p, .done => some (.inr (.put p.hash true), d)
  | sweepVisit keep deleted bytes, .found name =>
    match d.chunks[name]? with
    | none => none
    | some data =>
      if isChunkHash name ∧ name ∉ keep then
        some (.inl (.sweepRemove keep deleted bytes name data.length), d)
      else some (.inl (.sweepVisit keep deleted bytes), d)
  | sweepVisit _ deleted bytes, .done => some (.inr (.swept deleted bytes), d)
  | sweepRemove keep deleted bytes name length, .done =>
    if d.chunks.contains name then
      some (.inl (.sweepVisit keep (deleted + 1) (bytes + length)),
        { d with chunks := d.chunks.erase name })
    else some (.inr .failed, d)
  | tmpVisit before, .found tmp =>
    match d.temps[tmp]? with
    | none => none
    | some (_, mtime) =>
      if mtime < before then some (.inl (.tmpRemove before tmp), d) else some (.inl (.tmpVisit before), d)
  | tmpVisit _, .done => some (.inr .opened, d)
  | tmpRemove before tmp, .done =>
    some (.inl (.tmpVisit before), { d with temps := d.temps.erase tmp })
  | _, _ => none

/-! ## The system -/

/-- The files, the calls under way, and the answers so far, newest first. -/
structure StoreSystem where
  dir : StoreDir
  tasks : Std.ExtTreeMap Nat StoreTask compare
  answers : List StoreAnswer

/-- A call begins, makes its next system call, or is killed with its process; the clock goes on. -/
inductive StoreEvent where
  | call (i : Nat) (r : StoreRequest)
  | step (i : Nat) (o : StoreOutcome)
  | kill (i : Nat)
  | tick (now : Int)

/-- No put under way has this temporary. -/
def StoreSystem.tmpFree (s : StoreSystem) (tmp : Text) : Bool :=
  s.tasks.keys.all fun i => s.tasks[i]?.bind StoreTask.tmp? ≠ some tmp

/-- A call can begin: the name a put draws is not in use. -/
def StoreSystem.clear (s : StoreSystem) : StoreRequest → Bool
  | .put p => s.tmpFree p.tmp
  | _ => true

/-- A call goes on with its next system call, or has answered. -/
def StoreSystem.next (s : StoreSystem) (i : Nat) (d : StoreDir) :
    StoreTask ⊕ StoreAnswer → StoreSystem
  | .inl t => { s with dir := d, tasks := s.tasks.insert i t }
  | .inr a => { dir := d, tasks := s.tasks.erase i, answers := a :: s.answers }

/-- One step. -/
def StoreSystem.step (s : StoreSystem) : StoreEvent → Option StoreSystem
  | .call i r =>
    if s.tasks[i]? = none ∧ s.clear r = true then
      some (s.next i s.dir (r.begin blake3 s.dir.now))
    else none
  | .step i o =>
    s.tasks[i]?.bind fun t => (t.run blake3 s.dir o).map fun n => s.next i n.2 n.1
  | .kill i => some { s with tasks := s.tasks.erase i }
  | .tick now => some { s with dir := { s.dir with now } }

/-- A store as it is found: some files, and nothing under way. -/
def StoreSystem.boot (dir : StoreDir) : StoreSystem := { dir, tasks := ∅, answers := [] }

end

/-! ## What a system call does -/

/-- The cases of a system call. -/
inductive TaskStep (blake3 : Bytes → Text) (d : StoreDir) :
    StoreTask → StoreOutcome → StoreTask ⊕ StoreAnswer → StoreDir → Prop
  | failed (t : StoreTask) : TaskStep blake3 d t .fails t.fails d
  | missing {hash : Text} (h : d.chunks[hash]? = none) :
    TaskStep blake3 d (.getRead hash) .done (.inr (.notFound hash)) d
  | got {hash : Text} {data : Bytes} (h : d.chunks[hash]? = some data) (hhash : blake3 data = hash) :
    TaskStep blake3 d (.getRead hash) .done (.inr (.got hash data)) d
  | torn {hash : Text} {data : Bytes} (h : d.chunks[hash]? = some data) (hhash : blake3 data ≠ hash) :
    TaskStep blake3 d (.getRead hash) .done (.inl (.getRemove hash)) d
  | removed {hash : Text} : TaskStep blake3 d (.getRemove hash) .done (.inr (.notFound hash))
    { d with chunks := d.chunks.erase hash }
  | checked {hash : Text} :
    TaskStep blake3 d (.hasCheck hash) .done (.inr (.has hash (d.chunks.contains hash))) d
  | deduped {p : PutCall} (h : d.chunks.contains p.hash = true) :
    TaskStep blake3 d (.putCheck p) .done (.inr (.put p.hash false)) d
  | absent {p : PutCall} : TaskStep blake3 d (.putCheck p) .done (.inl (.putDir p)) d
  | dir {p : PutCall} : TaskStep blake3 d (.putDir p) .done (.inl (.putCreate p)) d
  | created {p : PutCall} : TaskStep blake3 d (.putCreate p) .done (.inl (.putWrite p p.data))
    { d with temps := d.temps.insert p.tmp ([], d.now) }
  | wrote {p : PutCall} {left : Bytes} {n : Nat} : TaskStep blake3 d (.putWrite p left) (.wrote n)
    (.inl (.putWrite p (left.drop n)))
    { d with temps := d.temps.modify p.tmp fun f => (f.1 ++ left.take n, d.now) }
  | written {p : PutCall} (h : p.deferred = true) :
    TaskStep blake3 d (.putWrite p []) .done (.inl (.putRename p)) d
  | unsynced {p : PutCall} (h : p.deferred = false) :
    TaskStep blake3 d (.putWrite p []) .done (.inl (.putSync p)) d
  | synced {p : PutCall} : TaskStep blake3 d (.putSync p) .done (.inl (.putRename p)) d
  | lost {p : PutCall} (h : d.temps[p.tmp]? = none) :
    TaskStep blake3 d (.putRename p) .done (.inr .failed) d
  | renamed {p : PutCall} {f : Bytes × Int} (h : d.temps[p.tmp]? = some f) :
    TaskStep blake3 d (.putRename p) .done
      (if p.deferred then .inl (.putFlush p) else .inr (.put p.hash true))
      { d with chunks := d.chunks.insert p.hash f.1, temps := d.temps.erase p.tmp }
  | flushed {p : PutCall} : TaskStep blake3 d (.putFlush p) .done (.inr (.put p.hash true)) d
  | doomed {keep : List Text} {deleted bytes length : Nat} {name : Text} (h : name ∉ keep) :
    TaskStep blake3 d (.sweepVisit keep deleted bytes) (.found name)
      (.inl (.sweepRemove keep deleted bytes name length)) d
  | kept {keep : List Text} {deleted bytes : Nat} {name : Text} :
    TaskStep blake3 d (.sweepVisit keep deleted bytes) (.found name)
      (.inl (.sweepVisit keep deleted bytes)) d
  | listed {keep : List Text} {deleted bytes : Nat} :
    TaskStep blake3 d (.sweepVisit keep deleted bytes) .done (.inr (.swept deleted bytes)) d
  | swept {keep : List Text} {deleted bytes length : Nat} {name : Text} :
    TaskStep blake3 d (.sweepRemove keep deleted bytes name length) .done
      (.inl (.sweepVisit keep (deleted + 1) (bytes + length)))
      { d with chunks := d.chunks.erase name }
  | unswept {keep : List Text} {deleted bytes length : Nat} {name : Text} :
    TaskStep blake3 d (.sweepRemove keep deleted bytes name length) .done (.inr .failed) d
  | stale {before : Int} {tmp : Text} :
    TaskStep blake3 d (.tmpVisit before) (.found tmp) (.inl (.tmpRemove before tmp)) d
  | fresh {before : Int} {tmp : Text} :
    TaskStep blake3 d (.tmpVisit before) (.found tmp) (.inl (.tmpVisit before)) d
  | opened {before : Int} : TaskStep blake3 d (.tmpVisit before) .done (.inr .opened) d
  | unlinked {before : Int} {tmp : Text} :
    TaskStep blake3 d (.tmpRemove before tmp) .done (.inl (.tmpVisit before))
      { d with temps := d.temps.erase tmp }

section
variable {blake3 : Bytes → Text} {d d' : StoreDir} {t : StoreTask} {o : StoreOutcome}
  {n : StoreTask ⊕ StoreAnswer}

/-- A system call that is done. -/
theorem StoreTask.step_of_done (hrun : t.run blake3 d .done = some (n, d')) :
    TaskStep blake3 d t .done n d' := by
  cases t with
  | getRead hash =>
    unfold run at hrun
    dsimp only at hrun
    split at hrun
    · cases hrun
      exact .missing ‹_›
    split at hrun
    · cases hrun
      exact .got ‹_› ‹_›
    · cases hrun
      exact .torn ‹_› ‹_›
  | putCheck p =>
    unfold run at hrun
    dsimp only at hrun
    split at hrun
    · cases hrun
      exact .deduped ‹_›
    · cases hrun
      exact .absent
  | putWrite p left =>
    cases left with
    | cons b left => cases hrun
    | nil =>
      cases hrun
      cases hdeferred : p.deferred with
      | true => exact .written hdeferred
      | false => exact .unsynced hdeferred
  | putRename p =>
    unfold run at hrun
    dsimp only at hrun
    split at hrun
    · cases hrun
      exact .lost ‹_›
    · cases hrun
      exact .renamed ‹_›
  | sweepRemove keep deleted bytes name length =>
    unfold run at hrun
    dsimp only at hrun
    split at hrun
    · cases hrun
      exact .swept
    · cases hrun
      exact .unswept
  | getRemove | hasCheck | putDir | putCreate | putSync | putFlush | sweepVisit | tmpVisit | tmpRemove =>
    cases hrun
    constructor

/-- **What a system call can be.** -/
theorem StoreTask.step_of_run (hrun : t.run blake3 d o = some (n, d')) :
    TaskStep blake3 d t o n d' := by
  cases o with
  | fails =>
    obtain ⟨rfl, rfl⟩ := Prod.mk.inj (Option.some.inj hrun)
    exact .failed t
  | wrote k =>
    cases t with
    | putWrite p left =>
      unfold run at hrun
      dsimp only at hrun
      split at hrun <;> cases hrun
      exact .wrote
    | _ => cases hrun
  | found name =>
    cases t with
    | sweepVisit keep deleted bytes =>
      unfold run at hrun
      dsimp only at hrun
      split at hrun
      · cases hrun
      split at hrun
      · rename_i hname
        cases hrun
        exact .doomed hname.2
      · cases hrun
        exact .kept
    | tmpVisit before =>
      unfold run at hrun
      dsimp only at hrun
      split at hrun
      · cases hrun
      split at hrun
      · cases hrun
        exact .stale
      · cases hrun
        exact .fresh
    | _ => cases hrun
  | done => exact step_of_done hrun

end

/-! ## What a task is sure of -/

/-- What holds of a task: a put carries the bytes of its name, and its temporary, where it is still
there, has what is written of them. -/
def StoreTask.Ok (blake3 : Bytes → Text) (d : StoreDir) : StoreTask → Prop
  | putCheck p | putDir p | putCreate p | putFlush p => blake3 p.data = p.hash
  | putWrite p left => blake3 p.data = p.hash ∧ ∀ f, d.temps[p.tmp]? = some f → f.1 ++ left = p.data
  | putSync p | putRename p => blake3 p.data = p.hash ∧ ∀ f, d.temps[p.tmp]? = some f → f.1 = p.data
  | _ => True

/-- A task that will not remove a chunk. -/
def StoreTask.Spares (hash : Text) : StoreTask → Prop
  | getRemove h => h ≠ hash
  | sweepVisit keep _ _ => hash ∈ keep
  | sweepRemove keep _ _ name _ => hash ∈ keep ∧ name ≠ hash
  | _ => True

/-- A chunk's file is there and has the bytes of its name. -/
def StoreDir.Intact (blake3 : Bytes → Text) (d : StoreDir) (hash : Text) : Prop :=
  ∃ data, d.chunks[hash]? = some data ∧ blake3 data = hash

/-- An answer by which a chunk is not there: a get misses it or, where its checks work, a check does. -/
def StoreAnswer.Denies (checked : Prop) (hash : Text) (a : StoreAnswer) : Prop :=
  a = .notFound hash ∨ checked ∧ a = .has hash false

/-- What a system call of a task does to the files. -/
structure TaskMove (blake3 : Bytes → Text) (t : StoreTask) (n : StoreTask ⊕ StoreAnswer)
    (d d' : StoreDir) : Prop where
  /-- A chunk's file is left alone, written with the bytes of its name, or removed by a task that does
  not spare it. -/
  chunk : ∀ x : Text, d'.chunks[x]? = d.chunks[x]? ∨ d'.Intact blake3 x ∨
    d'.chunks[x]? = none ∧ ¬ t.Spares x
  /-- Another's temporary is left alone or removed. -/
  temp : ∀ T : Text, t.tmp? ≠ some T → d'.temps[T]? = d.temps[T]? ∨ d'.temps[T]? = none
  /-- What the task becomes is in order, under the same temporary. -/
  ok : ∀ t', n = .inl t' → t'.Ok blake3 d' ∧ t'.tmp? = t.tmp?

section
variable {blake3 : Bytes → Text} {d d' : StoreDir} {t : StoreTask} {o : StoreOutcome}
  {n : StoreTask ⊕ StoreAnswer}

/-- A call that changes no file. -/
theorem TaskMove.quiet (hok : ∀ t', n = .inl t' → t'.Ok blake3 d ∧ t'.tmp? = t.tmp?) :
    TaskMove blake3 t n d d :=
  ⟨fun _ => .inl rfl, fun _ _ => .inl rfl, hok⟩

/-- A call that answers and changes no file. -/
theorem TaskMove.answer {a : StoreAnswer} : TaskMove blake3 t (.inr a) d d :=
  .quiet fun t' ht' => by cases ht'

/-- A call that changes no file, after which the task is in order. -/
theorem TaskMove.go {t' : StoreTask} (hok : t'.Ok blake3 d) (htmp : t'.tmp? = t.tmp?) :
    TaskMove blake3 t (.inl t') d d := by
  refine .quiet fun u hu => ?_
  cases hu
  exact ⟨hok, htmp⟩

/-- A removal of a chunk's file, by a task that does not spare it. -/
theorem TaskMove.remove {hash : Text} (hspares : ¬ t.Spares hash)
    (hok : ∀ t', n = .inl t' → t'.Ok blake3 { d with chunks := d.chunks.erase hash } ∧
      t'.tmp? = t.tmp?) : TaskMove blake3 t n d { d with chunks := d.chunks.erase hash } := by
  refine ⟨fun x => ?_, fun _ _ => .inl rfl, hok⟩
  dsimp only
  rw [Lib.getElem?_erase_eq]
  split
  · exact .inr (.inr ⟨rfl, ‹hash = x› ▸ hspares⟩)
  · exact .inl rfl

/-- A call that fails. -/
theorem StoreTask.taskMove_fails (hok : t.Ok blake3 d) : TaskMove blake3 t t.fails d d := by
  cases t with
  | putCheck p => exact .go hok rfl
  | tmpRemove before tmp => exact .go trivial rfl
  | _ => exact .answer

/-- A rename puts a chunk's file there, with the bytes of its name. -/
theorem TaskMove.rename {p : PutCall} {f : Bytes × Int} (hok : (StoreTask.putRename p).Ok blake3 d)
    (hf : d.temps[p.tmp]? = some f) : TaskMove blake3 (.putRename p)
      (if p.deferred then .inl (.putFlush p) else .inr (.put p.hash true)) d
      { d with chunks := d.chunks.insert p.hash f.1, temps := d.temps.erase p.tmp } := by
  obtain ⟨hhash, htemp⟩ := hok
  refine ⟨fun x => ?_, fun T hT => .inl ?_, fun t' ht' => ?_⟩
  · unfold StoreDir.Intact
    dsimp only
    rw [Lib.getElem?_insert_eq]
    split
    · exact .inr (.inl ⟨f.1, rfl, by rw [htemp f hf, hhash]; assumption⟩)
    · exact .inl rfl
  · dsimp only
    rw [Lib.getElem?_erase_eq, if_neg fun h => hT (congrArg some h)]
  · split at ht'
    · cases ht'
      exact ⟨hhash, rfl⟩
    · cases ht'

/-- **What a system call does**, whatever the task. -/
theorem TaskStep.move (h : TaskStep blake3 d t o n d') (hok : t.Ok blake3 d) :
    TaskMove blake3 t n d d' := by
  cases h with
  | failed => exact t.taskMove_fails hok
  | missing | got | checked | deduped | lost | flushed | listed | unswept | opened => exact .answer
  | torn | doomed | kept | stale | fresh => exact .go trivial rfl
  | absent | dir | synced => exact .go hok rfl
  | removed => exact .remove (fun h => h rfl) fun t' ht' => by cases ht'
  | created =>
    refine ⟨fun _ => .inl rfl, fun T hT => .inl ?_, fun t' ht' => ?_⟩
    · dsimp only
      rw [Lib.getElem?_insert_eq, if_neg fun h => hT (congrArg some h)]
    · cases ht'
      refine ⟨⟨hok, fun f hf => ?_⟩, rfl⟩
      rw [Std.ExtTreeMap.getElem?_insert_self] at hf
      rw [← Option.some.inj hf]
      rfl
  | wrote =>
    obtain ⟨hhash, htemp⟩ := hok
    refine ⟨fun _ => .inl rfl, fun T hT => .inl ?_, fun t' ht' => ?_⟩
    · dsimp only
      rw [Std.ExtTreeMap.getElem?_modify, if_neg]
      exact fun h => hT (congrArg some (Std.LawfulEqCmp.compare_eq_iff_eq.mp h))
    · cases ht'
      refine ⟨⟨hhash, fun f hf => ?_⟩, rfl⟩
      rw [Std.ExtTreeMap.getElem?_modify_self] at hf
      obtain ⟨f₀, hf₀, rfl⟩ := Option.map_eq_some_iff.mp hf
      rw [List.append_assoc, List.take_append_drop]
      exact htemp f₀ hf₀
  | written | unsynced =>
    exact .go ⟨hok.1, fun f hf => by rw [← hok.2 f hf, List.append_nil]⟩ rfl
  | renamed hf => exact .rename hok hf
  | swept =>
    refine .remove (fun h => h.2 rfl) fun t' ht' => ?_
    cases ht'
    exact ⟨trivial, rfl⟩
  | unlinked =>
    refine ⟨fun _ => .inl rfl, fun T _ => ?_, fun t' ht' => ?_⟩
    · dsimp only
      rw [Lib.getElem?_erase_eq]
      split
      · exact .inr rfl
      · exact .inl rfl
    · cases ht'
      exact ⟨trivial, rfl⟩

end

end Pear
