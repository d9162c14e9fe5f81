import Pear.Relay
import Pear.Lib.Prog

/-!
# The writer's upload

How a file's chunks come to `POST /chunks/put_many`: the encryption of an end-to-end encrypted
workspace (`crypto.rs`), the uploaders that buffer chunks, ask which are missing and send those
(`sync.rs`), and the client that splits a batch under the relay's caps (`relay.rs`). The relay may
answer anything. A ciphertext is 28 bytes longer than its chunk, and the relay caps a blob at the
longest chunk, so it takes every upload exactly when none of the chunks that are encrypted is within
28 bytes of the maximum (`uploads_accepted_iff`).
-/

namespace Pear

open Lib (Prog)

/-! ## Chunks and blobs -/

/-- `GCM_NONCE_LEN` and `GCM_TAG_LEN` -/
def gcmNonceLen : Nat := 12
def gcmTagLen : Nat := 16

/-- The hashes and the cipher the client rests on. -/
structure ChunkCrypto (Key : Type) where
  /-- `blake3::hash(…).to_hex()` -/
  blake3 : Bytes → Text
  /-- `blake3::keyed_hash` -/
  keyedHash : Key → Bytes → Bytes
  /-- AES-256-GCM: the ciphertext and its tag, from a key, a nonce and a plaintext. -/
  gcm : Key → Bytes → Bytes → Bytes

/-- What is known of them. -/
structure ChunkCrypto.Lawful {Key : Type} (C : ChunkCrypto Key) : Prop where
  hash_hex : ∀ b, isChunkHash (C.blake3 b) = true
  keyedHash_length : ∀ k b, (C.keyedHash k b).length = 32
  gcm_length : ∀ k n b, (C.gcm k n b).length = b.length + gcmTagLen

variable {Key : Type}

/-- `encrypt_with_nonce` -/
def encryptWithNonce (C : ChunkCrypto Key) (key : Key) (nonce plaintext : Bytes) : Bytes :=
  nonce ++ C.gcm key nonce plaintext

/-- `encrypt_chunk`: the nonce is the head of the keyed hash. -/
def encryptChunk (C : ChunkCrypto Key) (key : Key) (plaintext : Bytes) : Bytes :=
  encryptWithNonce C key ((C.keyedHash key plaintext).take gcmNonceLen) plaintext

/-- A hash with the blob it names. -/
abbrev Entry := Text × Bytes

/-- What a chunk is uploaded as: itself on a plain workspace, its ciphertext under a key. -/
def chunkEntry (C : ChunkCrypto Key) (key : Option Key) (chunk : Bytes) : Entry :=
  match key with
  | none => (C.blake3 chunk, chunk)
  | some key => (C.blake3 (encryptChunk C key chunk), encryptChunk C key chunk)

/-- The summed length of blobs. -/
def blobBytes (entries : List Entry) : Nat := (entries.map (·.2.length)).sum

/-! ## The client -/

/-- One result of `chunks/put_many`. -/
structure PutResult where
  hash : Text
  status : Text
  reason : Option Text

/-- A request of an upload. -/
inductive UploadOp where
  /-- `POST /chunks/missing` -/
  | missing (hashes : List Text)
  /-- `POST /chunks/put_many` -/
  | putMany (entries : List Entry)

/-- Its answer, or how it failed. -/
def UploadOp.Ret : UploadOp → Type
  | .missing _ => Except Text (List Text)
  | .putMany _ => Except Text (List PutResult)

/-- Why an upload fails. -/
inductive UploadError where
  /-- A request fails. -/
  | request (what : Text)
  /-- "chunks/put_many returned {results} results for {entries} entries" -/
  | shortAnswer (results entries : Nat)
  /-- "put_many returned {results} results for {entries} entries" -/
  | misaligned (results entries : Nat)
  /-- "chunk {hash}: {reason}" -/
  | entry (hash reason : Text)
  /-- "chunk {hash}: unexpected put_many status {status} for {named}" -/
  | unexpectedStatus (hash status named : Text)

/-- Split greedily: an element joins the batch before it while it fits, and a batch is never
empty. -/
def batches {α : Type} (fits : List α → α → Bool) : List α → List α → List (List α)
  | [], [] => []
  | batch, [] => [batch]
  | [], x :: xs => batches fits [x] xs
  | y :: ys, x :: xs =>
    if fits (y :: ys) x then batches fits (y :: ys ++ [x]) xs
    else (y :: ys) :: batches fits [x] xs

/-- `MISSING_BATCH` -/
def missingBatch : Nat := 50000

/-- The sub-batches of `put_chunks`. -/
def putBatches (entries : List Entry) : List (List Entry) :=
  batches (fun batch e => batch.length < Relay.putManyMaxEntries &&
    blobBytes batch + e.2.length ≤ Relay.putManyMaxBytes) [] entries

/-- An uploader (`BatchUploader`): what is confirmed, and what waits to be sent. -/
structure Uploader where
  seen : Std.ExtTreeSet Text compare
  pending : List Entry
  pendingHashes : Std.ExtTreeSet Text compare
  pendingBytes : Nat
  uploaded : Nat
  bytes : Nat

/-- A program of the client; an error comes with the uploader as it leaves it. -/
abbrev UploadProg := Prog UploadOp UploadOp.Ret (UploadError × Uploader)

/-- One request. -/
def request (op : UploadOp) : UploadProg op.Ret := .call op .done

/-- The requests of `chunks_missing`. -/
def missingLoop : List (List Text) → UploadProg (Except UploadError (List Text))
  | [] => return .ok []
  | batch :: rest => do
    match ← request (.missing batch) with
    | .error e => return .error (.request e)
    | .ok missing => return (← missingLoop rest).map (missing ++ ·)

/-- `has_many` of the relay client. -/
def hasMany (hashes : List Text) : UploadProg (Except UploadError (List Bool)) := do
  let missing ← missingLoop (batches (fun batch _ => batch.length < missingBatch) [] hashes)
  return missing.map fun missing => hashes.map (· ∉ missing)

/-- The requests of `put_chunks`. -/
def putLoop : List (List Entry) → UploadProg (Except UploadError (List PutResult))
  | [] => return .ok []
  | batch :: rest => do
    match ← request (.putMany batch) with
    | .error e => return .error (.request e)
    | .ok results =>
      if results.length ≠ batch.length then
        return .error (.shortAnswer results.length batch.length)
      else return (← putLoop rest).map (results ++ ·)

/-- What a result says of its entry: stored, present, or an error. -/
def PutResult.confirmed (r : PutResult) : Except (Text → UploadError) Bool :=
  if r.status = "stored".toList then .ok true
  else if r.status = "present".toList then .ok false
  else match r.reason with
    | some reason => .error fun hash => .entry hash reason
    | none => .error fun hash => .unexpectedStatus hash r.status r.hash

/-- `put_many` of the relay client. -/
def putMany (entries : List Entry) :
    UploadProg (Except UploadError (List (Except (Text → UploadError) Bool))) := do
  return (← putLoop (putBatches entries)).map (·.map PutResult.confirmed)

/-! ## The uploaders -/

/-- `UPLOAD_FLUSH_BYTES` -/
def uploadFlushBytes : Nat := 32 * 1024 * 1024

namespace Uploader

/-- `BatchUploader::new` -/
def new : Uploader :=
  { seen := ∅, pending := [], pendingHashes := ∅, pendingBytes := 0, uploaded := 0, bytes := 0 }

/-- A chunk the relay confirmed. -/
def confirm (u : Uploader) (hash : Text) : Uploader :=
  { u with seen := u.seen.insert hash, pendingHashes := u.pendingHashes.erase hash }

/-- Put entries back on the buffer. -/
def keep (u : Uploader) (entries : List Entry) : Uploader :=
  { u with pending := entries, pendingBytes := blobBytes entries }

/-- The results of one batch: the uploader, the entries that failed, and the first failure. -/
def settle : List (Entry × Except (Text → UploadError) Bool) → Uploader → List Entry →
    Option UploadError → Uploader × List Entry × Option UploadError
  | [], u, kept, error => (u, kept, error)
  | (e, .ok stored) :: rest, u, kept, error =>
    let u' := if stored then { u with uploaded := u.uploaded + 1, bytes := u.bytes + e.2.length }
      else u
    settle rest (u'.confirm e.1) kept error
  | (e, .error why) :: rest, u, kept, error =>
    settle rest u (kept ++ [e]) (error <|> some (why e.1))

/-- `BatchUploader::flush` -/
def flush (u : Uploader) : UploadProg Uploader := do
  if u.pending = [] then return u
  match ← hasMany (u.pending.map (·.1)) with
  | .error e => .fail (e, u)
  | .ok present =>
    let found := u.pending.zip present
    let toUpload := (found.filter (!·.2)).map (·.1)
    let u := ((found.filter (·.2)).map (·.1.1)).foldl confirm { u with pending := [] }
    match ← putMany toUpload with
    -- Nothing that is not present is confirmed, and it all goes back on the buffer.
    | .error e => .fail (e, u.keep toUpload)
    | .ok results =>
      if results.length ≠ toUpload.length then
        .fail (.misaligned results.length toUpload.length, u.keep toUpload)
      else
        let (u, kept, error) := settle (toUpload.zip results) u [] none
        match error with
        | some e => .fail (e, u.keep kept)
        | none => return u.keep kept

/-- `BatchUploader::buffer_chunk` -/
def bufferChunk (u : Uploader) (hash : Text) (data : Bytes) : UploadProg Uploader :=
  if hash ∈ u.seen ∨ hash ∈ u.pendingHashes then return u
  else
    let u := { u with
      pendingBytes := u.pendingBytes + data.length
      pendingHashes := u.pendingHashes.insert hash
      pending := u.pending ++ [(hash, data)] }
    if uploadFlushBytes ≤ u.pendingBytes then u.flush else return u

/-- `upload_file` of both uploaders, on a file the chunker splits into these chunks. It returns the
hashes the manifest records. -/
def uploadFile (C : ChunkCrypto Key) (key : Option Key) :
    List Bytes → Uploader → UploadProg (List Text × Uploader)
  | [], u => return ([], u)
  | chunk :: chunks, u => do
    let (hash, data) := chunkEntry C key chunk
    let u ← u.bufferChunk hash data
    let (hashes, u) ← uploadFile C key chunks u
    return (hash :: hashes, u)

/-- The files of a cycle, as the scan comes to them. -/
def uploadFiles (C : ChunkCrypto Key) (key : Option Key) :
    List (List Bytes) → Uploader → UploadProg (List (List Text) × Uploader)
  | [], u => return ([], u)
  | file :: files, u => do
    let (hashes, u) ← uploadFile C key file u
    let (rest, u) ← uploadFiles C key files u
    return (hashes :: rest, u)

end Uploader

/-- The uploads of one cycle: each changed file, then what is left in the buffer. -/
def uploadCycle (C : ChunkCrypto Key) (key : Option Key) (files : List (List Bytes)) :
    UploadProg (List (List Text) × Uploader) := do
  let (hashes, u) ← Uploader.uploadFiles C key files .new
  let u ← u.flush
  return (hashes, u)

/-- The relay takes a request of an upload: it refuses no writer the batch, and none of its
entries. -/
def UploadOp.accepted (blake3 : Bytes → Text) : UploadOp → Prop
  | .missing _ => True
  | .putMany entries =>
    (∀ (s : Relay) (id : Text) (p : Principal), s.access.isWriter id p = true →
      ∃ f, s.putManyChunks id p entries = .ok f) ∧
    ∀ e ∈ entries, Relay.checkEntry blake3 e.1 e.2 = .ok ()

/-! ## Batches -/

section
variable {α : Type} {fits : List α → α → Bool}

/-- The batches are the list. -/
theorem batches_flatten : ∀ batch xs : List α, (batches fits batch xs).flatten = batch ++ xs
  | [], [] | _ :: _, [] => by simp [batches]
  | [], x :: xs => by simp [batches, batches_flatten [x] xs]
  | y :: ys, x :: xs => by
    unfold batches
    split
    · rw [batches_flatten (y :: ys ++ [x]) xs, List.append_assoc]
      rfl
    · rw [List.flatten_cons, batches_flatten [x] xs]
      rfl

/-- What one element meets, and what a batch keeps when an element joins it, all batches meet. -/
theorem batches_forall {P : List α → Prop} {S : α → Prop} (hone : ∀ x, S x → P [x])
    (hjoin : ∀ batch x, P batch → S x → fits batch x = true → P (batch ++ [x])) :
    ∀ batch xs : List α, (batch ≠ [] → P batch) → (∀ x ∈ xs, S x) →
      ∀ b ∈ batches fits batch xs, P b
  | [], [], _, _ => fun b hb => nomatch hb
  | y :: ys, [], hbatch, _ => fun b hb => by
    have hb : b = y :: ys := by simpa [batches] using hb
    exact hb ▸ hbatch (List.cons_ne_nil y ys)
  | [], x :: xs, _, hS =>
    have ⟨hx, hxs⟩ := List.forall_mem_cons.mp hS
    batches_forall hone hjoin [x] xs (fun _ => hone x hx) hxs
  | y :: ys, x :: xs, hbatch, hS => by
    obtain ⟨hx, hxs⟩ := List.forall_mem_cons.mp hS
    have hys := hbatch (List.cons_ne_nil y ys)
    unfold batches
    split
    · rename_i hfit
      exact batches_forall hone hjoin _ xs (fun _ => hjoin _ x hys hx hfit) hxs
    · intro b hb
      rcases List.mem_cons.mp hb with rfl | hb
      · exact hys
      · exact batches_forall hone hjoin [x] xs (fun _ => hone x hx) hxs b hb

end

/-! ## What the relay takes -/

variable {C : ChunkCrypto Key} {key : Option Key} {chunk : Bytes}

/-- Encryption adds the nonce and the tag. -/
theorem encryptChunk_length (hC : C.Lawful) (k : Key) :
    (encryptChunk C k chunk).length = chunk.length + 28 := by
  unfold encryptChunk encryptWithNonce
  rw [List.length_append, List.length_take, hC.keyedHash_length, hC.gcm_length, gcmNonceLen,
    gcmTagLen]
  omega

/-- The hash of an upload is its blob's. -/
theorem chunkEntry_hash : (chunkEntry C key chunk).1 = C.blake3 (chunkEntry C key chunk).2 := by
  cases key <;> rfl

/-- **An entry passes the relay's checks when its blob is short enough**; its hash always does. -/
theorem checkEntry_chunkEntry (hC : C.Lawful) :
    Relay.checkEntry C.blake3 (chunkEntry C key chunk).1 (chunkEntry C key chunk).2 = .ok () ↔
      (chunkEntry C key chunk).2.length ≤ maxChunkSize := by
  rw [chunkEntry_hash]
  simp [Relay.checkEntry, refuseIf_bind_eq_ok_iff, hC.hash_hex]

/-- A chunk of a plain workspace is its own blob, and an encrypted one is 28 bytes longer. -/
theorem chunkEntry_length_le (key : Option Key) (hC : C.Lawful)
    (hsize : chunk.length ≤ maxChunkSize) :
    (chunkEntry C key chunk).2.length ≤ maxChunkSize ↔
      key = none ∨ chunk.length + 28 ≤ maxChunkSize := by
  cases key with
  | none => simp [chunkEntry, hsize]
  | some k => simp [chunkEntry, encryptChunk_length hC]

/-- An entry that passes is no longer than a chunk. -/
theorem length_le_of_checkEntry {blake3 : Bytes → Text} {e : Entry}
    (h : Relay.checkEntry blake3 e.1 e.2 = .ok ()) : e.2.length ≤ maxChunkSize := by
  simp only [Relay.checkEntry, refuseIf_bind_eq_ok_iff] at h
  exact Nat.le_of_not_lt h.2.1

theorem blobBytes_append (a b : List Entry) : blobBytes (a ++ b) = blobBytes a + blobBytes b := by
  simp [blobBytes]

/-- A sub-batch under both caps is taken from a writer. -/
theorem putManyChunks_of_caps {s : Relay} {id : Text} {p : Principal} {batch : List Entry}
    (hlen : batch.length ≤ Relay.putManyMaxEntries)
    (hbytes : blobBytes batch ≤ Relay.putManyMaxBytes) (hw : s.access.isWriter id p = true) :
    ∃ f, s.putManyChunks id p batch = .ok f := by
  unfold Access.isWriter at hw
  split at hw
  · rename_i ws hok
    refine ⟨s.flight id p (.storing batch []), ?_⟩
    unfold Relay.putManyChunks
    unfold blobBytes at hbytes
    rw [refuseIf_bind_eq_ok_iff, refuseIf_bind_eq_ok_iff, hok]
    exact ⟨Nat.not_lt.mpr hlen, Nat.not_lt.mpr hbytes, rfl⟩
  · cases hw

/-- **The client splits under the relay's caps**: no sub-batch is refused, and none of its entries
when they pass the checks. -/
theorem putBatches_accepted {entries : List Entry} {blake3 : Bytes → Text}
    (h : ∀ e ∈ entries, Relay.checkEntry blake3 e.1 e.2 = .ok ()) :
    ∀ batch ∈ putBatches entries, (UploadOp.putMany batch).accepted blake3 := by
  intro batch hbatch
  obtain ⟨hlen, hbytes, hall⟩ : batch.length ≤ Relay.putManyMaxEntries ∧
      blobBytes batch ≤ Relay.putManyMaxBytes ∧
        ∀ e ∈ batch, Relay.checkEntry blake3 e.1 e.2 = .ok () := by
    refine batches_forall (P := fun b => b.length ≤ Relay.putManyMaxEntries ∧
      blobBytes b ≤ Relay.putManyMaxBytes ∧ ∀ e ∈ b, Relay.checkEntry blake3 e.1 e.2 = .ok ())
      (fun e he => ?_) (fun b e hb he hfit => ?_) [] entries (fun hne => absurd rfl hne) h batch
      hbatch
    · have hlen := length_le_of_checkEntry he
      refine ⟨by simp [Relay.putManyMaxEntries], ?_, by simpa using he⟩
      simp only [blobBytes, List.map_cons, List.map_nil, List.sum_cons, List.sum_nil]
      unfold maxChunkSize at hlen
      unfold Relay.putManyMaxBytes
      omega
    · obtain ⟨-, -, hall⟩ := hb
      simp only [Bool.and_eq_true, decide_eq_true_eq] at hfit
      refine ⟨by rw [List.length_append]; exact hfit.1, ?_, ?_⟩
      · rw [blobBytes_append]
        simpa [blobBytes] using hfit.2
      · intro e' he'
        rcases List.mem_append.mp he' with he' | he'
        · exact hall e' he'
        · rw [List.mem_singleton.mp he']
          exact he
  exact ⟨fun s id p => putManyChunks_of_caps hlen hbytes, hall⟩

/-- The sub-batches hold the entries and no others. -/
theorem putBatches_mem {entries batch : List Entry} (hbatch : batch ∈ putBatches entries) :
    ∀ e ∈ batch, e ∈ entries := by
  intro e he
  have hflat : (putBatches entries).flatten = entries := batches_flatten [] entries
  rw [← hflat]
  exact List.mem_flatten.mpr ⟨batch, hbatch, he⟩

/-! ## Every request of an upload -/

/-- Uploads of entries that meet `P` are requests that meet `A`. -/
structure Screens (P : Entry → Prop) (A : UploadOp → Prop) : Prop where
  ask : ∀ hashes, A (.missing hashes)
  put : ∀ entries, (∀ e ∈ entries, P e) → ∀ batch ∈ putBatches entries, A (.putMany batch)

section
variable {P : Entry → Prop} {A : UploadOp → Prop}

/-- Everything in the buffer meets `P`. -/
def Uploader.Fit (P : Entry → Prop) (u : Uploader) : Prop := ∀ e ∈ u.pending, P e

/-- A presence check. -/
theorem hasMany_safe (hs : Screens P A) (hashes : List Text) :
    (hasMany hashes).Safe A fun _ => True := by
  have hloop : ∀ bs, (missingLoop bs).Safe A fun _ => True := by
    intro bs
    induction bs with
    | nil => trivial
    | cons b bs ih =>
      refine ⟨hs.ask b, fun r => ?_⟩
      cases r with
      | error e => trivial
      | ok missing => exact Prog.Safe.bind (p := missingLoop bs) (ih.mono fun _ _ => trivial)
  exact Prog.Safe.bind ((hloop _).mono fun _ _ => trivial)

/-- An upload. -/
theorem putMany_safe (hs : Screens P A) {entries : List Entry} (h : ∀ e ∈ entries, P e) :
    (putMany entries).Safe A fun _ => True := by
  have hloop : ∀ bs : List (List Entry), (∀ b ∈ bs, A (.putMany b)) →
      (putLoop bs).Safe A fun _ => True := by
    intro bs
    induction bs with
    | nil => exact fun _ => trivial
    | cons b bs ih =>
      intro hbs
      obtain ⟨hb, hbs⟩ := List.forall_mem_cons.mp hbs
      refine ⟨hb, fun r => ?_⟩
      cases r with
      | error e => trivial
      | ok results =>
        dsimp only [Prog.bind]
        split
        · trivial
        · exact Prog.Safe.bind ((ih hbs).mono fun _ _ => trivial)
  exact Prog.Safe.bind ((hloop _ (hs.put _ h)).mono fun _ _ => trivial)

namespace Uploader

/-- **An upload of a file returns the names of its chunks**, whatever the relay answers. -/
theorem uploadFile_returns (C : ChunkCrypto Key) (key : Option Key) :
    ∀ (file : List Bytes) (u : Uploader), (uploadFile C key file u).Safe (fun _ => True)
      fun out => out.1 = file.map fun c => (chunkEntry C key c).1
  | [], _ => rfl
  | c :: file, u => by
    refine Prog.Safe.bind ((Prog.safe_true (u.bufferChunk _ _)).mono fun u' _ => ?_)
    refine Prog.Safe.bind ((uploadFile_returns C key file u').mono fun out hout => ?_)
    exact congrArg _ hout

/-- And an upload of files those of each. -/
theorem uploadFiles_returns (C : ChunkCrypto Key) (key : Option Key) :
    ∀ (files : List (List Bytes)) (u : Uploader), (uploadFiles C key files u).Safe (fun _ => True)
      fun out => out.1 = files.map (·.map fun c => (chunkEntry C key c).1)
  | [], _ => rfl
  | file :: files, u => by
    refine Prog.Safe.bind ((uploadFile_returns C key file u).mono fun out hout => ?_)
    refine Prog.Safe.bind ((uploadFiles_returns C key files out.2).mono fun rest hrest => ?_)
    exact List.cons_eq_cons.mpr ⟨hout, hrest⟩

/-- Settling a batch keeps what failed of it, and no more. -/
theorem mem_kept_of_settle : ∀ (results : List (Entry × Except (Text → UploadError) Bool))
    {u : Uploader} {kept : List Entry} {error : Option UploadError} {e : Entry},
    e ∈ (settle results u kept error).2.1 → e ∈ kept ∨ e ∈ results.map (·.1)
  | [], _, _, _, _, h => .inl h
  | (x, .ok stored) :: rest, _, _, _, _, h =>
    (mem_kept_of_settle rest h).imp_right (List.mem_cons_of_mem _)
  | (x, .error why) :: rest, _, kept, _, e, h => by
    rcases mem_kept_of_settle rest h with h | h
    · rcases List.mem_append.mp h with h | h
      · exact .inl h
      · exact .inr (List.mem_cons.mpr (.inl (List.mem_singleton.mp h)))
    · exact .inr (List.mem_cons_of_mem _ h)

/-- A flush of a fit buffer leaves a fit one. -/
theorem flush_safe (hs : Screens P A) {u : Uploader} (hu : u.Fit P) :
    u.flush.Safe A (·.Fit P) := by
  unfold flush
  split
  · exact hu
  refine Prog.Safe.bind ((hasMany_safe hs _).mono fun present _ => ?_)
  cases present with
  | error e => trivial
  | ok present =>
    dsimp only
    generalize hput : ((u.pending.zip present).filter (!·.2)).map (·.1) = toUpload
    have hsub : ∀ e ∈ toUpload, P e := by
      intro e he
      rw [← hput] at he
      obtain ⟨⟨e', b⟩, hmem, rfl⟩ := List.mem_map.mp he
      exact hu _ (List.of_mem_zip (List.mem_filter.mp hmem).1).1
    refine Prog.Safe.bind ((putMany_safe hs hsub).mono fun results _ => ?_)
    cases results with
    | error e => trivial
    | ok results =>
      dsimp only
      split
      · trivial
      split
      · trivial
      · intro e he
        rcases mem_kept_of_settle _ he with he | he
        · cases he
        · obtain ⟨⟨e', r⟩, hmem, rfl⟩ := List.mem_map.mp he
          exact hsub _ (List.of_mem_zip hmem).1

/-- So does buffering an entry that meets `P`. -/
theorem bufferChunk_safe (hs : Screens P A) {u : Uploader} {e : Entry} (hu : u.Fit P) (he : P e) :
    (u.bufferChunk e.1 e.2).Safe A (·.Fit P) := by
  unfold bufferChunk
  split
  · exact hu
  have hfit : ∀ e' ∈ u.pending ++ [e], P e' := by
    intro e' he'
    rcases List.mem_append.mp he' with he' | he'
    · exact hu e' he'
    · rw [List.mem_singleton.mp he']
      exact he
  dsimp only
  split
  · exact flush_safe hs hfit
  · exact hfit

/-- And a file whose entries do. -/
theorem uploadFile_safe (hs : Screens P A) : ∀ {file : List Bytes} {u : Uploader}, u.Fit P →
    (∀ c ∈ file, P (chunkEntry C key c)) → (uploadFile C key file u).Safe A (·.2.Fit P)
  | [], _, hu, _ => hu
  | c :: file, u, hu, h => by
    obtain ⟨hc, h⟩ := List.forall_mem_cons.mp h
    refine Prog.Safe.bind ((bufferChunk_safe hs hu hc).mono fun u hu => ?_)
    exact Prog.Safe.bind ((uploadFile_safe hs hu h).mono fun _ hu => hu)

/-- And the files of a cycle. -/
theorem uploadFiles_safe (hs : Screens P A) : ∀ {files : List (List Bytes)} {u : Uploader},
    u.Fit P → (∀ c ∈ files.flatten, P (chunkEntry C key c)) →
      (uploadFiles C key files u).Safe A (·.2.Fit P)
  | [], _, hu, _ => hu
  | file :: files, u, hu, h => by
    rw [List.flatten_cons] at h
    obtain ⟨hfile, h⟩ := List.forall_mem_append.mp h
    refine Prog.Safe.bind ((uploadFile_safe hs hu hfile).mono fun _ hu => ?_)
    exact Prog.Safe.bind ((uploadFiles_safe hs hu h).mono fun _ hu => hu)

end Uploader

/-- **What the chunks of a cycle meet, its requests do.** -/
theorem uploadCycle_safe (hs : Screens P A) {files : List (List Bytes)}
    (h : ∀ c ∈ files.flatten, P (chunkEntry C key c)) :
    (uploadCycle C key files).Safe A fun _ => True := by
  have hnew : Uploader.new.Fit P := fun e he => nomatch he
  refine Prog.Safe.bind ((Uploader.uploadFiles_safe hs hnew h).mono fun out hu => ?_)
  exact Prog.Safe.bind ((Uploader.flush_safe hs hu).mono fun _ _ => trivial)

end

/-! ## Nothing is left out -/

/-- The entries a request carries. -/
def UploadOp.entries : UploadOp → List Entry
  | .missing _ => []
  | .putMany entries => entries

/-- The answers of a relay that lacks everything and stores everything. -/
def storesAll : (op : UploadOp) → op.Ret
  | .missing hashes => .ok hashes
  | .putMany entries => .ok (entries.map fun e => ⟨e.1, "stored".toList, none⟩)

/-- The hashes of entries. -/
def hashesOf (entries : List Entry) : List Text := entries.map (·.1)

/-- A program that returns a value, after requests that carry entries. -/
def Carries {α : Type} (p : UploadProg α) (sent : List Entry) (a : α) : Prop :=
  ∃ ops, p.along storesAll = (ops, .ok a) ∧ ops.flatMap UploadOp.entries = sent

/-- Sequencing. -/
theorem Carries.bind {α β : Type} {p : UploadProg α} {f : α → UploadProg β}
    {sent sent' : List Entry} {a : α} {b : β} (hp : Carries p sent a)
    (hf : Carries (f a) sent' b) : Carries (p >>= f) (sent ++ sent') b := by
  obtain ⟨ops, hrun, rfl⟩ := hp
  obtain ⟨ops', hrun', rfl⟩ := hf
  exact ⟨ops ++ ops', by rw [Prog.along_bind hrun, hrun'], List.flatMap_append⟩

theorem Carries.pure {α : Type} (a : α) : Carries (.done a) [] a := ⟨[], rfl, rfl⟩

/-- A last step without requests. -/
theorem Carries.finish {α β : Type} {p : UploadProg α} {f : α → UploadProg β} {sent : List Entry}
    {a : α} {b : β} (hp : Carries p sent a) (hf : f a = .done b) : Carries (p >>= f) sent b := by
  have hrun := hp.bind (f := f) (by rw [hf]; exact .pure b)
  rwa [List.append_nil] at hrun

/-- One request. -/
theorem request_carries (op : UploadOp) : Carries (request op) op.entries (storesAll op) :=
  ⟨[op], rfl, List.flatMap_singleton ..⟩

/-- Nothing is there. -/
theorem hasMany_carries (hashes : List Text) :
    Carries (hasMany hashes) [] (.ok (hashes.map fun _ => false)) := by
  have hloop : ∀ bs, Carries (missingLoop bs) [] (.ok bs.flatten) := by
    intro bs
    induction bs with
    | nil => exact .pure _
    | cons b bs ih => exact (request_carries (.missing b)).bind (ih.finish rfl)
  have hflat : (batches (fun batch _ => decide (batch.length < missingBatch)) [] hashes).flatten =
      hashes := batches_flatten [] hashes
  have hnone : (hashes.map fun _ => false) = hashes.map fun h => decide (h ∉ hashes) :=
    List.map_congr_left fun h hh => by simp [hh]
  have hrun := hloop (batches (fun batch _ => batch.length < missingBatch) [] hashes)
  rw [hflat] at hrun
  rw [hnone]
  exact hrun.finish rfl

/-- The result of an entry that was stored. -/
def storedResult (e : Entry) : PutResult := ⟨e.1, "stored".toList, none⟩

/-- Everything is stored. -/
theorem putMany_carries (entries : List Entry) :
    Carries (putMany entries) entries (.ok (entries.map fun _ => .ok true)) := by
  have hloop : ∀ bs : List (List Entry),
      Carries (putLoop bs) bs.flatten (.ok (bs.flatten.map storedResult)) := by
    intro bs
    induction bs with
    | nil => exact .pure _
    | cons b bs ih =>
      refine (request_carries (.putMany b)).bind ?_
      have hlen : ¬ (b.map storedResult).length ≠ b.length := by simp
      show Carries (if (b.map storedResult).length ≠ b.length then _ else _) _ _
      rw [if_neg hlen, List.flatten_cons, List.map_append]
      exact ih.finish rfl
  have hflat : (putBatches entries).flatten = entries := batches_flatten [] entries
  have hrun := hloop (putBatches entries)
  rw [hflat] at hrun
  have hok : (entries.map fun _ => (.ok true : Except (Text → UploadError) Bool)) =
      (entries.map storedResult).map PutResult.confirmed := by
    rw [List.map_map]
    exact List.map_congr_left fun e _ => rfl
  rw [hok]
  exact hrun.finish rfl

namespace Uploader

/-- What an uploader has confirmed after one more. -/
theorem mem_confirm_seen {u : Uploader} {hash h : Text} :
    h ∈ (u.confirm hash).seen ↔ h = hash ∨ h ∈ u.seen := by
  unfold confirm
  rw [Std.ExtTreeSet.mem_insert, Std.LawfulEqCmp.compare_eq_iff_eq, eq_comm]

/-- And what it still waits with. -/
theorem mem_confirm_pendingHashes {u : Uploader} {hash h : Text} :
    h ∈ (u.confirm hash).pendingHashes ↔ h ≠ hash ∧ h ∈ u.pendingHashes := by
  unfold confirm
  rw [Std.ExtTreeSet.mem_erase, ne_eq, Std.LawfulEqCmp.compare_eq_iff_eq, eq_comm]

/-- Settling stored entries. -/
theorem settle_stored : ∀ (entries : List Entry) (u : Uploader), ∃ u',
    settle (entries.map fun e => (e, .ok true)) u [] none = (u', [], none) ∧
      (∀ h ∈ u'.seen, h ∈ u.seen ∨ h ∈ hashesOf entries) ∧
      ∀ h ∈ u'.pendingHashes, h ∈ u.pendingHashes ∧ h ∉ hashesOf entries
  | [], u => ⟨u, rfl, fun h hh => .inl hh, fun h hh => ⟨hh, List.not_mem_nil⟩⟩
  | e :: entries, u => by
    obtain ⟨u', hrun, hseen, hpending⟩ := settle_stored entries
      ({ u with uploaded := u.uploaded + 1, bytes := u.bytes + e.2.length }.confirm e.1)
    refine ⟨u', hrun, fun h hh => ?_, fun h hh => ?_⟩
    · rcases hseen h hh with hh | hh
      · rcases mem_confirm_seen.mp hh with rfl | hh
        · exact .inr List.mem_cons_self
        · exact .inl hh
      · exact .inr (List.mem_cons_of_mem _ hh)
    · obtain ⟨hh, hnot⟩ := hpending h hh
      obtain ⟨hne, hh⟩ := mem_confirm_pendingHashes.mp hh
      exact ⟨hh, fun hin => (List.mem_cons.mp hin).elim hne hnot⟩

/-- What an uploader has sent: a hash it has seen was, and one it waits with is in the buffer. -/
structure Sent (sent : List Entry) (u : Uploader) : Prop where
  seen : ∀ h ∈ u.seen, h ∈ hashesOf sent
  pending : ∀ h ∈ u.pendingHashes, h ∈ hashesOf u.pending

/-- A hash that was sent or will be. -/
def Due (sent : List Entry) (u : Uploader) (h : Text) : Prop :=
  h ∈ hashesOf sent ∨ h ∈ hashesOf u.pending

/-- A flush sends the buffer. -/
theorem flush_carries {sent : List Entry} {u : Uploader} (hu : Sent sent u) : ∃ u',
    Carries u.flush u.pending u' ∧ Sent (sent ++ u.pending) u' ∧ u'.pending = [] := by
  unfold flush
  by_cases hempty : u.pending = []
  · rw [if_pos hempty, hempty]
    exact ⟨u, .pure u, by rw [List.append_nil]; exact hu, hempty⟩
  rw [if_neg hempty]
  obtain ⟨u', hsettle, hseen, hpending⟩ := settle_stored u.pending { u with pending := [] }
  refine ⟨u'.keep [], ?_, ⟨fun h hh => ?_, fun h hh => ?_⟩, rfl⟩
  · show Carries _ ([] ++ u.pending) _
    refine (hasMany_carries _).bind ?_
    have hzip : u.pending.zip ((u.pending.map (·.1)).map fun _ => false) =
        u.pending.map fun e => (e, false) := by
      rw [List.map_map]
      exact List.map_prod_left_eq_zip.symm
    have hnone : (u.pending.map fun e => (e, false)).filter (·.2) = [] := by simp
    have hall : ((u.pending.map fun e => (e, false)).filter (!·.2)).map (·.1) = u.pending := by
      simp [List.filter_map, Function.comp_def]
    dsimp only
    rw [hzip]
    rw [hnone, hall]
    refine (putMany_carries u.pending).finish ?_
    let stored : Except (Text → UploadError) Bool := .ok true
    have hresults : u.pending.zip (u.pending.map fun _ => stored) =
        u.pending.map fun e => (e, stored) := List.map_prod_left_eq_zip.symm
    have hlen : ¬ (u.pending.map fun _ => stored).length ≠ u.pending.length := by simp
    dsimp only
    rw [if_neg hlen, hresults, List.map_nil, List.foldl_nil, hsettle]
    rfl
  · rw [hashesOf, List.map_append]
    exact List.mem_append.mpr ((hseen h hh).imp_left (hu.seen h))
  · obtain ⟨hin, hnot⟩ := hpending h hh
    exact absurd (hu.pending h hin) hnot

/-- What is due stays due when a buffer is sent. -/
theorem Due.of_sent {sent : List Entry} {u u' : Uploader} {h : Text} (hd : Due sent u h) :
    Due (sent ++ u.pending) u' h := by
  refine .inl ?_
  rw [hashesOf, List.map_append]
  exact List.mem_append.mpr hd

/-- **A buffered chunk is due**, whether its hash was known, waits, or is flushed at once. -/
theorem bufferChunk_carries {sent : List Entry} {u : Uploader} (hu : Sent sent u) (e : Entry) :
    ∃ more u', Carries (u.bufferChunk e.1 e.2) more u' ∧ Sent (sent ++ more) u' ∧
      Due (sent ++ more) u' e.1 ∧ ∀ h, Due sent u h → Due (sent ++ more) u' h := by
  unfold bufferChunk
  by_cases hknown : e.1 ∈ u.seen ∨ e.1 ∈ u.pendingHashes
  · rw [if_pos hknown]
    refine ⟨[], u, .pure u, ?_, ?_, ?_⟩
    · rwa [List.append_nil]
    · rw [List.append_nil]
      exact hknown.imp (hu.seen _) (hu.pending _)
    · rw [List.append_nil]
      exact fun h hd => hd
  rw [if_neg hknown]
  dsimp only
  let u₁ : Uploader := { u with
    pendingBytes := u.pendingBytes + e.2.length
    pendingHashes := u.pendingHashes.insert e.1
    pending := u.pending ++ [(e.1, e.2)] }
  have hpending : hashesOf u₁.pending = hashesOf u.pending ++ [e.1] := List.map_append
  have hsent : Sent sent u₁ := by
    refine ⟨hu.seen, fun h hh => ?_⟩
    rw [hpending, List.mem_append, List.mem_singleton]
    rcases Std.ExtTreeSet.mem_insert.mp hh with hh | hh
    · exact .inr (Std.LawfulEqCmp.compare_eq_iff_eq.mp hh).symm
    · exact .inl (hu.pending h hh)
  have hdue : ∀ h, Due sent u h → Due sent u₁ h := by
    intro h hd
    rw [Due, hpending]
    exact hd.imp_right (List.mem_append_left _)
  have hnew : Due sent u₁ e.1 := .inr (by rw [hpending]; exact List.mem_append_right _ (.head _))
  split
  · obtain ⟨u', hrun, hsent', -⟩ := flush_carries hsent
    exact ⟨u₁.pending, u', hrun, hsent', hnew.of_sent, fun h hd => (hdue h hd).of_sent⟩
  · refine ⟨[], u₁, .pure u₁, ?_, ?_, ?_⟩
    all_goals rw [List.append_nil]
    · exact hsent
    · exact hnew
    · exact hdue

/-- The chunks of a file are due after it. -/
theorem uploadFile_carries (C : ChunkCrypto Key) (key : Option Key) :
    ∀ (file : List Bytes) {sent : List Entry} {u : Uploader}, Sent sent u →
    ∃ more out, Carries (uploadFile C key file u) more out ∧
      Sent (sent ++ more) out.2 ∧
      (∀ c ∈ file, Due (sent ++ more) out.2 (chunkEntry C key c).1) ∧
      ∀ h, Due sent u h → Due (sent ++ more) out.2 h
  | [], sent, u, hu => by
    refine ⟨[], ([], u), .pure _, ?_, by simp, ?_⟩
    all_goals rw [List.append_nil]
    · exact hu
    · exact fun h hd => hd
  | c :: file, sent, u, hu => by
    obtain ⟨more₁, u₁, hrun₁, hsent₁, hc, hdue₁⟩ := bufferChunk_carries hu (chunkEntry C key c)
    obtain ⟨more₂, ⟨hashes, u₂⟩, hrun₂, hsent₂, hfile, hdue₂⟩ :=
      uploadFile_carries C key file hsent₁
    refine ⟨more₁ ++ more₂, ((chunkEntry C key c).1 :: hashes, u₂),
      hrun₁.bind (hrun₂.finish rfl), ?_, ?_, ?_⟩
    all_goals rw [← List.append_assoc]
    · exact hsent₂
    · exact List.forall_mem_cons.mpr ⟨hdue₂ _ hc, hfile⟩
    · exact fun h hd => hdue₂ h (hdue₁ h hd)

/-- And so are those of all files. -/
theorem uploadFiles_carries (C : ChunkCrypto Key) (key : Option Key) :
    ∀ (files : List (List Bytes)) {sent : List Entry} {u : Uploader}, Sent sent u →
    ∃ more out, Carries (uploadFiles C key files u) more out ∧
      Sent (sent ++ more) out.2 ∧
      (∀ c ∈ files.flatten, Due (sent ++ more) out.2 (chunkEntry C key c).1) ∧
      ∀ h, Due sent u h → Due (sent ++ more) out.2 h
  | [], sent, u, hu => by
    refine ⟨[], ([], u), .pure _, ?_, by simp, ?_⟩
    all_goals rw [List.append_nil]
    · exact hu
    · exact fun h hd => hd
  | file :: files, sent, u, hu => by
    obtain ⟨more₁, ⟨hashes, u₁⟩, hrun₁, hsent₁, hfile, hdue₁⟩ := uploadFile_carries C key file hu
    obtain ⟨more₂, ⟨rest, u₂⟩, hrun₂, hsent₂, hfiles, hdue₂⟩ :=
      uploadFiles_carries C key files hsent₁
    refine ⟨more₁ ++ more₂, (hashes :: rest, u₂), hrun₁.bind (hrun₂.finish rfl), ?_, ?_, ?_⟩
    all_goals rw [← List.append_assoc]
    · exact hsent₂
    · rw [List.flatten_cons]
      exact List.forall_mem_append.mpr ⟨fun c hc => hdue₂ _ (hfile c hc), hfiles⟩
    · exact fun h hd => hdue₂ h (hdue₁ h hd)

end Uploader

/-- **A cycle leaves no chunk out**: against a relay that lacks everything, every hash is sent. -/
theorem uploadCycle_carries (C : ChunkCrypto Key) (key : Option Key) (files : List (List Bytes)) :
    ∃ sent out, Carries (uploadCycle C key files) sent out ∧
      ∀ c ∈ files.flatten, (chunkEntry C key c).1 ∈ hashesOf sent := by
  have hnew : Uploader.Sent [] .new :=
    ⟨fun h hh => absurd hh Std.ExtTreeSet.not_mem_empty,
      fun h hh => absurd hh Std.ExtTreeSet.not_mem_empty⟩
  obtain ⟨more, ⟨hashes, u⟩, hrun, hsent, hdue, -⟩ :=
    Uploader.uploadFiles_carries C key files hnew
  obtain ⟨u', hflush, -, -⟩ := Uploader.flush_carries hsent
  refine ⟨more ++ u.pending, (hashes, u'), hrun.bind (hflush.finish rfl), fun c hc => ?_⟩
  rw [hashesOf, List.map_append]
  exact List.mem_append.mpr (hdue c hc)

/-! ## Which uploads the relay takes -/

/-- The relay's checks screen what it takes. -/
theorem screens_accepted (blake3 : Bytes → Text) :
    Screens (fun e => Relay.checkEntry blake3 e.1 e.2 = .ok ()) (·.accepted blake3) :=
  ⟨fun _ => trivial, fun _ h => putBatches_accepted h⟩

/-- A request carries entries of the upload only. -/
theorem screens_mem (S : List Entry) : Screens (· ∈ S) fun op => ∀ e ∈ op.entries, e ∈ S :=
  ⟨fun _ _ he => absurd he List.not_mem_nil,
    fun _ h _ hbatch e he => h e (putBatches_mem hbatch e he)⟩

/-- When the relay takes every request of a cycle, no blob of it is too long: a relay that lacks
everything is sent the chunk's hash, and the entry sent under it is the chunk's own. -/
theorem length_le_of_safe {files : List (List Bytes)} {Q : List (List Text) × Uploader → Prop}
    (hcollide : ∀ c ∈ files.flatten, ∀ c' ∈ files.flatten,
      (chunkEntry C key c).1 = (chunkEntry C key c').1 →
        (chunkEntry C key c).2 = (chunkEntry C key c').2)
    (hsafe : (uploadCycle C key files).Safe (·.accepted C.blake3) Q) :
    ∀ c ∈ files.flatten, (chunkEntry C key c).2.length ≤ maxChunkSize := by
  intro c hc
  obtain ⟨sent, out, ⟨ops, hrun, rfl⟩, hall⟩ := uploadCycle_carries C key files
  obtain ⟨e, he, hhash⟩ := List.mem_map.mp (hall c hc)
  obtain ⟨op, hop, he⟩ := List.mem_flatMap.mp he
  have hrun' : op ∈ ((uploadCycle C key files).along storesAll).1 := by rwa [hrun]
  have hmem := (uploadCycle_safe (screens_mem (files.flatten.map (chunkEntry C key)))
    fun c hc => List.mem_map_of_mem hc).along op hrun' e he
  obtain ⟨c', hc', rfl⟩ := List.mem_map.mp hmem
  rw [← hcollide c' hc' c hc hhash]
  cases op with
  | missing hashes => cases he
  | putMany entries => exact length_le_of_checkEntry ((hsafe.along _ hrun').2 _ he)

/-- **Which uploads the relay takes.** Whatever it answers, every request of a cycle is one it
takes, entry by entry, exactly when the workspace is plain or no chunk is within 28 bytes of the
maximum. No two chunks of the upload have blobs that collide. -/
theorem uploads_accepted_iff (C : ChunkCrypto Key) (hC : C.Lawful) (key : Option Key)
    (files : List (List Bytes)) (hsize : ∀ c ∈ files.flatten, c.length ≤ maxChunkSize)
    (hcollide : ∀ c ∈ files.flatten, ∀ c' ∈ files.flatten,
      (chunkEntry C key c).1 = (chunkEntry C key c').1 →
        (chunkEntry C key c).2 = (chunkEntry C key c').2) :
    (uploadCycle C key files).Safe (·.accepted C.blake3) (fun _ => True) ↔
      key = none ∨ ∀ c ∈ files.flatten, c.length + 28 ≤ maxChunkSize := by
  have hfit : (∀ c ∈ files.flatten, (chunkEntry C key c).2.length ≤ maxChunkSize) ↔
      key = none ∨ ∀ c ∈ files.flatten, c.length + 28 ≤ maxChunkSize := by
    rw [forall₂_congr fun c hc => chunkEntry_length_le key hC (hsize c hc)]
    by_cases hkey : key = none
    · simp [hkey]
    · simp [hkey]
  rw [← hfit]
  constructor
  · exact length_le_of_safe hcollide
  · intro h
    exact uploadCycle_safe (screens_accepted C.blake3) fun c hc =>
      (checkEntry_chunkEntry hC).mpr (h c hc)

/-- Stand-ins with the lengths and the alphabet of the real ones. -/
def lengthsOnly : ChunkCrypto Unit where
  blake3 _ := List.replicate 64 'a'
  keyedHash _ _ := List.replicate 32 0
  gcm _ _ b := b ++ List.replicate gcmTagLen 0

theorem lengthsOnly_lawful : lengthsOnly.Lawful where
  hash_hex _ := by
    show isChunkHash (List.replicate 64 'a') = true
    decide
  keyedHash_length _ _ := List.length_replicate ..
  gcm_length _ _ b := by simp [lengthsOnly]

/-- The same with a hash that tells blobs apart: the sum of the bytes, as a digit. -/
def digitSum : ChunkCrypto Unit where
  blake3 b := List.replicate 64 (Nat.digitChar ((b.map UInt8.toNat).sum % 16))
  keyedHash := lengthsOnly.keyedHash
  gcm := lengthsOnly.gcm

theorem digitSum_lawful : digitSum.Lawful where
  hash_hex b := by
    have hdigits : ∀ d < 16, isChunkHash (List.replicate 64 (Nat.digitChar d)) = true := by decide
    exact hdigits _ (Nat.mod_lt _ (by decide))
  keyedHash_length := lengthsOnly_lawful.keyedHash_length
  gcm_length := lengthsOnly_lawful.gcm_length

/-- Two files of short chunks are taken. -/
theorem uploads_accepted_iff_short :
    (uploadCycle digitSum (some ()) [[[1, 2, 3], [4, 5]], [[7]]]).Safe
      (·.accepted digitSum.blake3) (fun _ => True) :=
  (uploads_accepted_iff digitSum digitSum_lawful (some ()) [[[1, 2, 3], [4, 5]], [[7]]]
    (by decide) (by decide)).mpr (.inr (by decide))

/-- A file of one long chunk is refused when it is encrypted. -/
theorem long_chunk_refused (hC : C.Lawful) (k : Key) {c : Bytes}
    (hlong : maxChunkSize < c.length + 28) :
    ¬ (uploadCycle C (some k) [[c]]).Safe (·.accepted C.blake3) (fun _ => True) := by
  intro hsafe
  have hone : ∀ c' ∈ [[c]].flatten, c' = c := fun c' hc' => List.mem_singleton.mp hc'
  have hlen := length_le_of_safe (fun c₁ h₁ c₂ h₂ _ => by rw [hone c₁ h₁, hone c₂ h₂]) hsafe c
    (List.mem_singleton.mpr rfl)
  rw [chunkEntry, encryptChunk_length hC] at hlen
  omega

/-- A chunk of the maximum length. -/
def fullChunk : Bytes := List.replicate maxChunkSize 0

theorem fullChunk_length : fullChunk.length = maxChunkSize := List.length_replicate

/-- **It is refused when it is encrypted.** -/
theorem full_chunk_refused : fullChunk.length = maxChunkSize ∧
    ¬ (uploadCycle lengthsOnly (some ()) [[fullChunk]]).Safe (·.accepted lengthsOnly.blake3)
      (fun _ => True) :=
  ⟨fullChunk_length, long_chunk_refused lengthsOnly_lawful () (by
    rw [fullChunk_length]
    omega)⟩

end Pear
