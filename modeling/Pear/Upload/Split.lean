import Pear.Upload

/-!
# The sub-batches of an upload

The loop of `RelayClient::put_chunks` as it is written (`relay.rs`): two indices into the entries,
a byte count, and an escape for an entry that is over the byte cap by itself. Every round moves
`start` (`lt_batchEnd`), which is why the loop ends, and what the rounds send are the batches of the
greedy split (`subBatches_eq`), so the program is `putLoop` on them (`putChunks_eq`). From
`putChunksFrom_trace`, which is about any answers, `put_chunks_splits` says what is sent and what the
results are the results of.
-/

namespace Pear

open Lib (Prog)

/-! ## The loop -/

/-- The inner loop: how far a sub-batch goes that begins at `start` and holds `bytes` up to `stop`.
The sum is one of `u64`, in whose range it stays: `bytes` is under the cap, and a blob is in
memory. -/
def fillBatch (entries : List Entry) (start stop bytes : Nat) : Nat :=
  if h : stop < entries.length then
    if stop - start < Relay.putManyMaxEntries ∧
        bytes + entries[stop].2.length ≤ Relay.putManyMaxBytes then
      fillBatch entries start (stop + 1) (bytes + entries[stop].2.length)
    else stop
  else stop
termination_by entries.length - stop

/-- Where the sub-batch that begins at `start` ends. An entry that does not fit is sent alone. -/
def batchEnd (entries : List Entry) (start : Nat) : Nat :=
  let stop := fillBatch entries start start 0
  if stop = start then stop + 1 else stop

/-- The inner loop does not go back. -/
theorem le_fillBatch (entries : List Entry) (start stop bytes : Nat) :
    stop ≤ fillBatch entries start stop bytes := by
  fun_induction fillBatch entries start stop bytes with
  | case1 stop bytes h hfits ih => omega
  | case2 | case3 => exact le_refl _

/-- **Every round moves on.** -/
theorem lt_batchEnd (entries : List Entry) (start : Nat) : start < batchEnd entries start := by
  have hle := le_fillBatch entries start start 0
  unfold batchEnd
  dsimp only
  split <;> omega

/-- The outer loop, with the results so far. -/
def putChunksFrom (entries : List Entry) (start : Nat) (out : List PutResult) :
    UploadProg (Except UploadError (List PutResult)) :=
  if start < entries.length then do
    let stop := batchEnd entries start
    let batch := entries.extract start stop
    match ← request (.putMany batch) with
    | .error e => return .error (.request e)
    | .ok results =>
      if results.length ≠ batch.length then
        return .error (.shortAnswer results.length batch.length)
      else putChunksFrom entries stop (out ++ results)
  else return .ok out
termination_by entries.length - start
decreasing_by
  have := lt_batchEnd entries start
  omega

/-- `put_chunks` -/
def putChunks (entries : List Entry) : UploadProg (Except UploadError (List PutResult)) :=
  putChunksFrom entries 0 []

/-- The slices the rounds from `start` on cut. -/
def subBatchesFrom (entries : List Entry) (start : Nat) : List (List Entry) :=
  if start < entries.length then
    entries.extract start (batchEnd entries start) ::
      subBatchesFrom entries (batchEnd entries start)
  else []
termination_by entries.length - start
decreasing_by
  have := lt_batchEnd entries start
  omega

/-- The slices that `put_chunks` cuts. -/
def subBatches (entries : List Entry) : List (List Entry) := subBatchesFrom entries 0

/-! ## The greedy split -/

section
variable {α : Type} {fits : List α → α → Bool}

/-- A batch with something in it takes the next element, or gives way to one that begins with it. -/
theorem batches_cons {batch : List α} (hne : batch ≠ []) (x : α) (xs : List α) :
    batches fits batch (x :: xs) =
      if fits batch x then batches fits (batch ++ [x]) xs
      else batch :: batches fits [] (x :: xs) := by
  cases batch with
  | nil => exact absurd rfl hne
  | cons y ys => rfl

/-- The last batch. -/
theorem batches_nil {batch : List α} (hne : batch ≠ []) : batches fits batch [] = [batch] := by
  cases batch with
  | nil => exact absurd rfl hne
  | cons y ys => rfl

/-- A slice that is one longer. -/
theorem extract_succ {xs : List α} {start stop : Nat} (hle : start ≤ stop) (h : stop < xs.length) :
    xs.extract start (stop + 1) = xs.extract start stop ++ [xs[stop]] := by
  have hlen : stop - start < (xs.drop start).length := by
    rw [List.length_drop]
    omega
  have hget : (xs.drop start)[stop - start] = xs[stop] := by
    rw [List.getElem_drop]
    congr 1
    omega
  rw [List.extract_eq_take_drop, Nat.succ_sub hle, List.take_succ_eq_append_getElem hlen, hget]

end

/-- Does an entry join a sub-batch? -/
def fitsBatch (batch : List Entry) (e : Entry) : Bool :=
  batch.length < Relay.putManyMaxEntries && blobBytes batch + e.2.length ≤ Relay.putManyMaxBytes

section
variable {entries : List Entry} {start stop bytes : Nat}

/-- A slice is nonempty when it ends behind its start. -/
theorem extract_ne_nil (hlt : start < stop) (hle : stop ≤ entries.length) :
    entries.extract start stop ≠ [] := by
  intro hnil
  have hlen := congrArg List.length hnil
  simp only [List.extract_eq_take_drop, List.length_take, List.length_drop, List.length_nil] at hlen
  omega

/-- The test of the inner loop is the one of the greedy split. -/
theorem fits_iff (hle : start ≤ stop) (hlen : stop ≤ entries.length) (e : Entry) :
    fitsBatch (entries.extract start stop) e = true ↔
      stop - start < Relay.putManyMaxEntries ∧
        blobBytes (entries.extract start stop) + e.2.length ≤ Relay.putManyMaxBytes := by
  have hcount : (entries.extract start stop).length = stop - start := by
    rw [List.extract_eq_take_drop, List.length_take, List.length_drop]
    omega
  rw [fitsBatch, Bool.and_eq_true, decide_eq_true_eq, decide_eq_true_eq, hcount]

/-- **The inner loop closes the batch that the greedy split closes.** -/
theorem batches_fillBatch (entries : List Entry) (start stop bytes : Nat) (hlt : start < stop)
    (hle : stop ≤ entries.length) (hbytes : bytes = blobBytes (entries.extract start stop)) :
    batches fitsBatch (entries.extract start stop) (entries.drop stop) =
      entries.extract start (fillBatch entries start stop bytes) ::
        batches fitsBatch [] (entries.drop (fillBatch entries start stop bytes)) := by
  fun_induction fillBatch entries start stop bytes with
  | case1 stop bytes h hfits ih =>
    have hnext : blobBytes (entries.extract start (stop + 1)) =
        bytes + entries[stop].2.length := by
      rw [extract_succ (Nat.le_of_lt hlt) h, blobBytes_append, ← hbytes]
      simp [blobBytes]
    rw [← ih (by omega) h hnext.symm, List.drop_eq_getElem_cons h,
      batches_cons (extract_ne_nil hlt hle), if_pos, extract_succ (Nat.le_of_lt hlt) h]
    rw [fits_iff (Nat.le_of_lt hlt) hle, ← hbytes]
    exact hfits
  | case2 stop bytes h hfull =>
    rw [List.drop_eq_getElem_cons h, batches_cons (extract_ne_nil hlt hle), if_neg]
    rw [fits_iff (Nat.le_of_lt hlt) hle, ← hbytes]
    exact hfull
  | case3 stop bytes hend =>
    have hdone : entries.drop stop = [] := List.drop_eq_nil_of_le (by omega)
    rw [hdone, batches_nil (extract_ne_nil hlt hle)]
    rfl

/-- So does a round of the outer loop, also when the first entry fits nowhere. -/
theorem batches_batchEnd (entries : List Entry) (start : Nat) (h : start < entries.length) :
    batches fitsBatch [] (entries.drop start) =
      entries.extract start (batchEnd entries start) ::
        batches fitsBatch [] (entries.drop (batchEnd entries start)) := by
  have hone : entries.extract start (start + 1) = [entries[start]] := by
    rw [extract_succ (le_refl _) h]
    simp
  have hopen : batches fitsBatch [] (entries.drop start) =
      batches fitsBatch (entries.extract start (start + 1)) (entries.drop (start + 1)) := by
    rw [hone, List.drop_eq_getElem_cons h]
    rfl
  have hfill := batches_fillBatch entries start (start + 1) entries[start].2.length (by omega) h
    (by rw [hone]; simp [blobBytes])
  rw [hopen]
  unfold batchEnd
  dsimp only
  rw [fillBatch, dif_pos h]
  by_cases hfits : start - start < Relay.putManyMaxEntries ∧
      0 + entries[start].2.length ≤ Relay.putManyMaxBytes
  · have hle := le_fillBatch entries start (start + 1) entries[start].2.length
    rw [if_pos hfits, Nat.zero_add, if_neg (by omega)]
    exact hfill
  · rw [if_neg hfits, if_pos rfl]
    -- The entry is over the byte cap, so nothing joins it.
    have hbig : Relay.putManyMaxBytes < entries[start].2.length := by
      unfold Relay.putManyMaxEntries at hfits
      omega
    rw [hone]
    cases hrest : entries.drop (start + 1) with
    | nil => rfl
    | cons x xs =>
      rw [batches_cons (List.cons_ne_nil _ _), if_neg]
      simp only [fitsBatch, Bool.and_eq_true, decide_eq_true_eq, blobBytes, List.map_cons,
        List.map_nil, List.sum_cons, List.sum_nil]
      omega

/-- The rounds from an index on send the greedy split of what is left. -/
theorem subBatchesFrom_eq (entries : List Entry) (start : Nat) :
    subBatchesFrom entries start = batches fitsBatch [] (entries.drop start) := by
  fun_induction subBatchesFrom entries start with
  | case1 start h ih => rw [batches_batchEnd entries start h, ih]
  | case2 start h => rw [List.drop_eq_nil_of_le (by omega), batches]

/-- **The loop splits greedily.** -/
theorem subBatches_eq (entries : List Entry) : subBatches entries = putBatches entries :=
  subBatchesFrom_eq entries 0

/-- The loop from an index on is the loop over the batches. -/
theorem putChunksFrom_eq (entries : List Entry) (start : Nat) (out : List PutResult) :
    putChunksFrom entries start out =
      (do return (← putLoop (subBatchesFrom entries start)).map (out ++ ·)) := by
  fun_induction putChunksFrom entries start out with
  | case1 start out h stop batch ih =>
    rw [subBatchesFrom, if_pos h]
    refine congrArg (Prog.call _) (funext fun r => ?_)
    cases r with
    | error e => rfl
    | ok results =>
      change (if results.length ≠ batch.length then
          .done (.error (.shortAnswer results.length batch.length))
        else putChunksFrom entries stop (out ++ results)) =
        (if results.length ≠ batch.length then
          .done (.error (.shortAnswer results.length batch.length))
        else putLoop (subBatchesFrom entries stop) >>= fun rest =>
          .done (rest.map (results ++ ·))) >>= fun rest => .done (rest.map (out ++ ·))
      split
      · rfl
      · rw [ih results, Prog.bind_assoc]
        refine congrArg (putLoop _ >>= ·) (funext fun rest => ?_)
        cases rest with
        | error e => rfl
        | ok rest => simp [Except.map]
  | case2 start out h =>
    rw [subBatchesFrom, if_neg h]
    simp [putLoop, Except.map]

/-- **`put_chunks` is the loop over the batches of the greedy split.** -/
theorem putChunks_eq (entries : List Entry) : putChunks entries = putLoop (putBatches entries) := by
  have hmap : (fun res : Except UploadError (List PutResult) => res.map ([] ++ ·)) = id := by
    funext res
    cases res <;> rfl
  unfold putChunks
  rw [putChunksFrom_eq, ← subBatches_eq]
  exact (congrArg (fun f => putLoop (subBatches entries) >>= fun r => Prog.done (f r)) hmap).trans
    (Prog.bind_done _)

end

/-! ## What is asked of a split -/

/-- Sub-batches of the entries: all of them in their order, none twice and no sub-batch without one,
under the caps of the relay. -/
structure Splits (entries : List Entry) (sent : List (List Entry)) : Prop where
  join : sent.flatten = entries
  nonempty : ∀ batch ∈ sent, batch ≠ []
  short : ∀ batch ∈ sent, batch.length ≤ Relay.putManyMaxEntries
  light : (∀ e ∈ entries, e.2.length ≤ Relay.putManyMaxBytes) →
    ∀ batch ∈ sent, blobBytes batch ≤ Relay.putManyMaxBytes

/-- There are no more sub-batches than entries. -/
theorem Splits.length_le {entries : List Entry} {sent : List (List Entry)}
    (h : Splits entries sent) : sent.length ≤ entries.length := by
  have hone : ∀ n ∈ sent.map List.length, 1 ≤ n := by
    intro n hn
    obtain ⟨batch, hbatch, rfl⟩ := List.mem_map.mp hn
    exact List.length_pos_iff.mpr (h.nonempty batch hbatch)
  have hsum := List.length_le_sum_of_one_le _ hone
  rw [← h.join, List.length_flatten]
  rwa [List.length_map] at hsum

/-- A relay takes such sub-batches from a writer, when no blob is over the byte cap by itself. -/
theorem Splits.taken {entries : List Entry} {sent : List (List Entry)} (h : Splits entries sent)
    (hfit : ∀ e ∈ entries, e.2.length ≤ Relay.putManyMaxBytes) {batch : List Entry}
    (hbatch : batch ∈ sent) (s : Relay) (id : Text) (p : Principal)
    (hw : s.access.isWriter id p = true) : ∃ f, s.putManyChunks id p batch = .ok f :=
  putManyChunks_of_caps (h.short batch hbatch) (h.light hfit batch hbatch) hw

/-- The greedy split is one. -/
theorem splits_putBatches (entries : List Entry) : Splits entries (putBatches entries) where
  join := batches_flatten [] entries
  nonempty :=
    batches_forall (S := fun _ => True) (fun x _ => List.cons_ne_nil x [])
      (fun batch x _ _ _ => List.append_ne_nil_of_right_ne_nil batch (List.cons_ne_nil x []))
      [] entries id fun _ _ => trivial
  short :=
    batches_forall (S := fun _ => True) (fun x _ => by simp [Relay.putManyMaxEntries])
      (fun batch x _ _ hfit => by
        rw [Bool.and_eq_true, decide_eq_true_eq] at hfit
        rw [List.length_append]
        exact hfit.1)
      [] entries (absurd rfl) fun _ _ => trivial
  light hfit :=
    batches_forall (S := fun e => e.2.length ≤ Relay.putManyMaxBytes)
      (fun x hx => by simpa [blobBytes] using hx)
      (fun batch x _ _ hjoin => by
        rw [Bool.and_eq_true, decide_eq_true_eq, decide_eq_true_eq] at hjoin
        rw [blobBytes_append]
        simpa [blobBytes] using hjoin.2)
      [] entries (absurd rfl) hfit

/-! ## The answers -/

/-- Every sub-batch was sent and answered with one result an entry, and the pairs are the entries
with the results they got. -/
inductive UploadAnswered :
    List (List Entry) → List (Sigma UploadOp.Ret) → List (Entry × PutResult) → Prop
  | nil : UploadAnswered [] [] []
  | cons {batch : List Entry} {results : List PutResult} {sent : List (List Entry)}
      {t : List (Sigma UploadOp.Ret)} {pairs : List (Entry × PutResult)}
      (hlen : results.length = batch.length) (h : UploadAnswered sent t pairs) :
      UploadAnswered (batch :: sent) (⟨.putMany batch, .ok results⟩ :: t) (batch.zip results ++ pairs)

/-- What was sent. -/
theorem UploadAnswered.sent {sent : List (List Entry)} {t : List (Sigma UploadOp.Ret)}
    {pairs : List (Entry × PutResult)} (h : UploadAnswered sent t pairs) :
    t.map (·.1) = sent.map .putMany := by
  induction h with
  | nil => rfl
  | cons hlen h ih => rw [List.map_cons, List.map_cons, ih]

/-- **The runs of the loop**, whatever the relay answers: the slices are sent in their order, with
none after a request that failed, and results that are returned go on from those before by the
answers to all of them. -/
theorem putChunksFrom_trace (entries : List Entry) (start : Nat) (out : List PutResult) :
    ∀ {t : List (Sigma UploadOp.Ret)}
      {res : Except (UploadError × Uploader) (Except UploadError (List PutResult))},
      (putChunksFrom entries start out).Trace t res →
      t.map (·.1) <+: (subBatchesFrom entries start).map .putMany ∧
      ∀ results, res = .ok (.ok results) → ∃ rest, results = out ++ rest ∧
        rest.length = (subBatchesFrom entries start).flatten.length ∧
        UploadAnswered (subBatchesFrom entries start) t
          ((subBatchesFrom entries start).flatten.zip rest) := by
  fun_induction putChunksFrom entries start out with
  | case1 start out hlt stop =>
    rename_i batch ih
    intro t res h
    rw [subBatchesFrom, if_pos hlt]
    cases h with
    | @call _ _ answer t _ h =>
      cases answer with
      | error e =>
        cases h
        exact ⟨List.prefix_append [_] _, nofun⟩
      | ok answers =>
        change (if answers.length ≠ batch.length then
            .done (.error (.shortAnswer answers.length batch.length))
          else putChunksFrom entries stop (out ++ answers)).Trace t res at h
        by_cases hlen : answers.length = batch.length
        · rw [if_neg (not_not_intro hlen)] at h
          obtain ⟨hsent, hok⟩ := ih answers h
          refine ⟨(List.prefix_cons_inj _).mpr hsent, fun results hres => ?_⟩
          obtain ⟨rest, rfl, hrest, hall⟩ := hok results hres
          refine ⟨answers ++ rest, List.append_assoc _ _ _, ?_, ?_⟩
          · rw [List.flatten_cons, List.length_append, List.length_append, hlen, hrest]
          · rw [List.flatten_cons, List.zip_append hlen.symm]
            exact .cons hlen hall
        · rw [if_pos hlen] at h
          cases h
          exact ⟨List.prefix_append [_] _, nofun⟩
  | case2 start out hge =>
    intro t res h
    rw [subBatchesFrom, if_neg hge]
    cases h
    refine ⟨List.prefix_rfl, fun results hres => ⟨[], ?_, rfl, .nil⟩⟩
    cases hres
    exact (List.append_nil _).symm

/-- **The splitting of an upload.** The sub-batches are a split of the entries under the relay's
caps; a run of `put_chunks` sends them from the first on, so there are at most as many requests as
entries; and one that returns results has sent them all, and returns one result for every entry,
which stands where the entry does. -/
theorem put_chunks_splits (entries : List Entry) :
    Splits entries (subBatches entries) ∧
    ((∀ e ∈ entries, e.2.length ≤ Relay.putManyMaxBytes) → ∀ batch ∈ subBatches entries,
      ∀ (s : Relay) (id : Text) (p : Principal), s.access.isWriter id p = true →
        ∃ f, s.putManyChunks id p batch = .ok f) ∧
    ∀ (t : List (Sigma UploadOp.Ret))
      (res : Except (UploadError × Uploader) (Except UploadError (List PutResult))),
      (putChunks entries).Trace t res →
      t.map (·.1) <+: (subBatches entries).map .putMany ∧ t.length ≤ entries.length ∧
      ∀ results, res = .ok (.ok results) →
        t.map (·.1) = (subBatches entries).map .putMany ∧ results.length = entries.length ∧
        UploadAnswered (subBatches entries) t (entries.zip results) := by
  have hsplits : Splits entries (subBatches entries) := by
    rw [subBatches_eq]
    exact splits_putBatches entries
  refine ⟨hsplits, fun hfit batch hbatch => hsplits.taken hfit hbatch, fun t res h => ?_⟩
  obtain ⟨hsent, hok⟩ := putChunksFrom_trace entries 0 [] h
  refine ⟨hsent, ?_, fun results hres => ?_⟩
  · have hlen := hsent.length_le
    rw [List.length_map, List.length_map] at hlen
    exact hlen.trans hsplits.length_le
  · obtain ⟨rest, rfl, hrest, hall⟩ := hok results hres
    rw [show subBatchesFrom entries 0 = subBatches entries from rfl, hsplits.join] at hrest hall
    exact ⟨hall.sent, hrest, hall⟩

/-- Two chunks of a relay that has the second. -/
theorem put_chunks_splits_two :
    let entries : List Entry := [("a".toList, [1]), ("b".toList, [2, 3])]
    let results : List PutResult :=
      [⟨"a".toList, "stored".toList, none⟩, ⟨"b".toList, "present".toList, none⟩]
    let t : List (Sigma UploadOp.Ret) := [⟨.putMany entries, .ok results⟩]
    (putChunks entries).Trace t (.ok (.ok results)) ∧
      t.map (·.1) = (subBatches entries).map .putMany ∧
      UploadAnswered (subBatches entries) t (entries.zip results) ∧
      ∀ batch ∈ subBatches entries, blobBytes batch ≤ Relay.putManyMaxBytes := by
  intro entries results t
  have hrun : (putChunks entries).Trace t (.ok (.ok results)) := by
    rw [putChunks_eq]
    exact .call (.done _)
  obtain ⟨hsplits, -, hruns⟩ := put_chunks_splits entries
  obtain ⟨hsent, -, hall⟩ := (hruns t _ hrun).2.2 results rfl
  exact ⟨hrun, hsent, hall, hsplits.light (by decide)⟩

end Pear
