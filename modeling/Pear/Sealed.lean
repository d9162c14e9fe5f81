import Pear.Base64
import Pear.Keyring
import Pear.LocalSync
import Pear.Upload

/-!
# Sealed chunks and manifests

The reading half of an end-to-end encrypted workspace: `decrypt_chunk` and `decrypt_blob`
(`crypto.rs`), the tries of a key ring, the encrypted manifest of a head or a snapshot, and the chunk
source that decrypts what a local store holds (`e2e.rs`). What is read here comes from the relay.

A blob opens under a key exactly when it was sealed under that key (`decryptChunk_eq_ok_iff`), so a
ring opens exactly what one of its keys has sealed, whatever else it tries first (`openAny_eq_ok_iff`).
A chunk list names bytes when its names are those of blobs that the ring opens to the parts of these
bytes; the parts may have been sealed under different generations, as they are after a rotation
(`NamesBytes`). Such a list is read back as these bytes, or not at all (`eq_of_assemble_names`).
-/

namespace Pear

/-! ## The cipher -/

/-- The cipher the client rests on, with its decryption. -/
structure ChunkCipher (Key : Type) extends ChunkCrypto Key where
  /-- AES-256-GCM: the plaintext, from a key, a nonce and a ciphertext with its tag. -/
  gcmOpen : Key → Bytes → Bytes → Option Bytes

/-- What is relied on of it: what opens is what was sealed, and no two keys seal to one ciphertext. -/
structure ChunkCipher.Sound {Key : Type} (C : ChunkCipher Key) : Prop where
  lawful : C.toChunkCrypto.Lawful
  open_iff : ∀ k n c b, C.gcmOpen k n c = some b ↔ c = C.gcm k n b
  key_eq : ∀ k k' n b b', C.gcm k n b = C.gcm k' n b' → k = k'

/-- Why a blob does not open. -/
inductive SealError where
  /-- "encrypted chunk is {len} bytes; nonce + tag alone are 28" -/
  | short (len : Nat)
  /-- "chunk does not decrypt under this workspace key" -/
  | wrongKey
deriving DecidableEq

variable {Key : Type}

/-- `decrypt_chunk` and `decrypt_blob` -/
def decryptChunk (C : ChunkCipher Key) (key : Key) (blob : Bytes) : Except SealError Bytes :=
  if blob.length < gcmNonceLen + gcmTagLen then .error (.short blob.length)
  else match C.gcmOpen key (blob.take gcmNonceLen) (blob.drop gcmNonceLen) with
    | some plaintext => .ok plaintext
    | none => .error .wrongKey

section
variable {C : ChunkCipher Key} {k k' : Key} {n n' b b' blob : Bytes}

/-- **A blob opens under a key exactly when it was sealed under it.** -/
theorem decryptChunk_eq_ok_iff (hC : C.Sound) : decryptChunk C k blob = .ok b ↔
    ∃ n, n.length = gcmNonceLen ∧ blob = encryptWithNonce C.toChunkCrypto k n b := by
  unfold decryptChunk
  constructor
  · intro h
    split at h
    · cases h
    rename_i hlen
    split at h
    · rename_i p hp
      obtain rfl := Except.ok.inj h
      refine ⟨blob.take gcmNonceLen, ?_, ?_⟩
      · rw [List.length_take]
        omega
      · rw [encryptWithNonce, ← (hC.open_iff _ _ _ _).mp hp, List.take_append_drop]
    · cases h
  · rintro ⟨n, hn, rfl⟩
    have hlen : (encryptWithNonce C.toChunkCrypto k n b).length =
        gcmNonceLen + (b.length + gcmTagLen) := by
      rw [encryptWithNonce, List.length_append, hn, hC.lawful.gcm_length]
    rw [if_neg (by omega), encryptWithNonce, ← hn, List.take_left, List.drop_left,
      (hC.open_iff _ _ _ _).mpr rfl]

/-- A blob is sealed under one key, from one plaintext. -/
theorem encryptWithNonce_inj (hC : C.Sound) (hn : n.length = gcmNonceLen)
    (hn' : n'.length = gcmNonceLen)
    (h : encryptWithNonce C.toChunkCrypto k n b = encryptWithNonce C.toChunkCrypto k' n' b') :
    k = k' ∧ b = b' := by
  obtain ⟨rfl, hc⟩ := List.append_inj h (hn.trans hn'.symm)
  obtain rfl := hC.key_eq _ _ _ _ _ hc
  have hopen := (hC.open_iff k n _ b).mpr rfl
  rw [hc, (hC.open_iff k n _ b').mpr rfl] at hopen
  exact ⟨rfl, (Option.some.inj hopen).symm⟩

end

/-! ## The tries of a ring -/

/-- Why nothing opens under a ring: the last try's error, in the context "{what} does not decrypt under
any of this keyring's {generations} generation(s)", or "{what}: the keyring is empty". -/
inductive RingError where
  | noneOpens (what : Text) (generations : Nat) (last : SealError)
  | emptyRing (what : Text)
deriving DecidableEq

/-- The loop of `decrypt`, which keeps the last error. -/
def tryKeys {α : Type} (attempt : Key → Except SealError α) :
    Option SealError → List Key → Except (Option SealError) α
  | last, [] => .error last
  | _, k :: ks =>
    match attempt k with
    | .ok a => .ok a
    | .error e => tryKeys attempt (some e) ks

/-- `decrypt`, with its errors. -/
def Keyring.openAny {α : Type} (r : Keyring Key) (what : Text) (attempt : Key → Except SealError α) :
    Except RingError α :=
  match tryKeys attempt none (r.keys.toList.reverse.map (·.2)) with
  | .ok a => .ok a
  | .error (some e) => .error (.noneOpens what r.keys.size e)
  | .error none => .error (.emptyRing what)

section
variable {α : Type} {r : Keyring Key} {what : Text} {attempt : Key → Except SealError α} {a : α}

/-- The loop returns the first success. -/
theorem tryKeys_eq_ok_iff : ∀ {ks : List Key} {last : Option SealError},
    tryKeys attempt last ks = .ok a ↔ ks.findSome? (fun k => (attempt k).toOption) = some a
  | [], last => by simp [tryKeys]
  | k :: ks, last => by
    rw [tryKeys, List.findSome?_cons]
    cases attempt k with
    | ok a' => simp [Except.toOption]
    | error e => exact tryKeys_eq_ok_iff

/-- What a ring opens is what it decrypts, errors apart. -/
theorem Keyring.openAny_eq_decrypt :
    r.openAny what attempt = .ok a ↔ r.decrypt (fun k => (attempt k).toOption) = some a := by
  have hloop : tryKeys attempt none (r.keys.toList.reverse.map (·.2)) = .ok a ↔ _ := tryKeys_eq_ok_iff
  rw [decrypt, ← hloop, openAny]
  cases tryKeys attempt none (r.keys.toList.reverse.map (·.2)) with
  | ok a' => simp
  | error e => cases e <;> simp

/-- A ring decrypts by one of its keys. -/
theorem Keyring.key_of_decrypt {attempt : Key → Option α} (h : r.decrypt attempt = some a) :
    ∃ (g : Nat) (k : Key), r.keys[g]? = some k ∧ attempt k = some a := by
  obtain ⟨k, hk, ha⟩ := List.exists_of_findSome?_eq_some h
  obtain ⟨⟨g, k'⟩, hmem, rfl⟩ := List.mem_map.mp hk
  exact ⟨g, k', Std.ExtTreeMap.mem_toList_iff_getElem?_eq_some.mp (List.mem_reverse.mp hmem), ha⟩

end

/-- A blob that one of a ring's keys has sealed. -/
def SealedBy (C : ChunkCipher Key) (r : Keyring Key) (blob plaintext : Bytes) : Prop :=
  ∃ (g : Nat) (k : Key) (n : Bytes), r.keys[g]? = some k ∧ n.length = gcmNonceLen ∧
    blob = encryptWithNonce C.toChunkCrypto k n plaintext

section
variable {C : ChunkCipher Key} {r r' : Keyring Key} {what : Text} {blob b b' : Bytes}

/-- **A ring opens exactly what one of its keys has sealed.** -/
theorem openAny_eq_ok_iff (hC : C.Sound) :
    r.openAny what (decryptChunk C · blob) = .ok b ↔ SealedBy C r blob b := by
  rw [Keyring.openAny_eq_decrypt]
  constructor
  · intro h
    obtain ⟨g, k, hg, hk⟩ := Keyring.key_of_decrypt h
    cases hd : decryptChunk C k blob with
    | error e =>
      rw [hd] at hk
      cases hk
    | ok p =>
      rw [hd] at hk
      obtain rfl : p = b := Option.some.inj hk
      obtain ⟨n, hn, hblob⟩ := (decryptChunk_eq_ok_iff hC).mp hd
      exact ⟨g, k, n, hg, hn, hblob⟩
  · rintro ⟨g, k, n, hg, hn, rfl⟩
    refine Keyring.decrypt_eq_some hg ?_ fun k' hne => ?_
    · rw [(decryptChunk_eq_ok_iff hC).mpr ⟨n, hn, rfl⟩]
      rfl
    · cases hd : decryptChunk C k' (encryptWithNonce C.toChunkCrypto k n b) with
      | error e => rfl
      | ok p =>
        obtain ⟨n', hn', heq⟩ := (decryptChunk_eq_ok_iff hC).mp hd
        exact absurd (encryptWithNonce_inj hC hn hn' heq).1.symm hne

/-- It is the plaintext of one blob. -/
theorem SealedBy.eq (hC : C.Sound) (h : SealedBy C r blob b) (h' : SealedBy C r' blob b') : b = b' := by
  obtain ⟨g, k, n, -, hn, rfl⟩ := h
  obtain ⟨g', k', n', -, hn', heq⟩ := h'
  exact (encryptWithNonce_inj hC hn hn' heq).2

/-- A ring with more keys opens more. -/
theorem SealedBy.mono (h : SealedBy C r blob b)
    (hsub : ∀ (g : Nat) (k : Key), r.keys[g]? = some k → r'.keys[g]? = some k) :
    SealedBy C r' blob b := by
  obtain ⟨g, k, n, hg, hn, hblob⟩ := h
  exact ⟨g, k, n, hsub g k hg, hn, hblob⟩

end

/-! ## Manifests -/

/-- `serde_json` at manifests. -/
structure ManifestJson where
  /-- `to_vec` -/
  write : Manifest → Bytes
  /-- `from_slice` -/
  read : Bytes → Option Manifest

/-- Why an encrypted manifest cannot be read. -/
inductive SealedManifestError where
  /-- "manifest_enc is not valid base64" -/
  | notBase64 (e : Base64Error)
  | closed (e : RingError)
  /-- "the decrypted manifest is not a pear manifest" -/
  | notAManifest
deriving DecidableEq

/-- `encrypt_manifest`, with the nonce it draws. -/
def encryptManifest (C : ChunkCipher Key) (j : ManifestJson) (r : Keyring Key) (nonce : Bytes)
    (m : Manifest) : Text :=
  base64Encode (encryptWithNonce C.toChunkCrypto r.newest.2 nonce (j.write m))

/-- `decrypt_manifest` -/
def decryptManifest (C : ChunkCipher Key) (j : ManifestJson) (r : Keyring Key) (manifestEnc : Text) :
    Except SealedManifestError Manifest :=
  match base64Decode manifestEnc with
  | .error e => .error (.notBase64 e)
  | .ok blob =>
    match r.openAny "the encrypted manifest".toList (decryptChunk C · blob) with
    | .error e => .error (.closed e)
    | .ok json =>
      match j.read json with
      | none => .error .notAManifest
      | some m => .ok m

section
variable {C : ChunkCipher Key} {j : ManifestJson} {r w : Keyring Key} {nonce : Bytes} {m : Manifest}
  {enc : Text}

/-- **What a ring reads was sealed by one of its keys.** -/
theorem decryptManifest_eq_ok_iff (hC : C.Sound) : decryptManifest C j r enc = .ok m ↔
    ∃ blob json, base64Decode enc = .ok blob ∧ SealedBy C r blob json ∧ j.read json = some m := by
  unfold decryptManifest
  constructor
  · intro h
    cases hd : base64Decode enc with
    | error e =>
      rw [hd] at h
      cases h
    | ok blob =>
      rw [hd] at h
      dsimp only at h
      cases ho : r.openAny "the encrypted manifest".toList (decryptChunk C · blob) with
      | error e =>
        rw [ho] at h
        cases h
      | ok json =>
        rw [ho] at h
        dsimp only at h
        cases hj : j.read json with
        | none =>
          rw [hj] at h
          cases h
        | some m' =>
          rw [hj] at h
          cases h
          exact ⟨blob, json, rfl, (openAny_eq_ok_iff hC).mp ho, hj⟩
  · rintro ⟨blob, json, hd, hs, hj⟩
    rw [hd]
    dsimp only
    rw [(openAny_eq_ok_iff hC).mpr hs]
    dsimp only
    rw [hj]

/-- **A manifest is read back** by a ring that has the key it was sealed under. -/
theorem decryptManifest_encryptManifest (hC : C.Sound) (hj : j.read (j.write m) = some m)
    (hn : nonce.length = gcmNonceLen) (hkey : ∃ g : Nat, r.keys[g]? = some w.newest.2) :
    decryptManifest C j r (encryptManifest C j w nonce m) = .ok m := by
  obtain ⟨g, hg⟩ := hkey
  exact (decryptManifest_eq_ok_iff hC).mpr ⟨_, _, base64Decode_eq_ok_iff.mpr (decodes_encode _),
    ⟨g, _, nonce, hg, hn, rfl⟩, hj⟩

end

/-! ## Chunks -/

/-- What a device reads chunks with: nothing on a plain workspace, its ring on an encrypted one. -/
abbrev ReadKey (Key : Type) : Type := Option (Keyring Key)

/-- A blob that is read as a part of a file. -/
def BlobOf (C : ChunkCipher Key) : ReadKey Key → Bytes → Bytes → Prop
  | none, blob, part => blob = part
  | some r, blob, part => SealedBy C r blob part

/-- The chunk source of an apply: the local store, which verifies what it reads, and on an encrypted
workspace `DecryptingSource`, which verifies it again and decrypts it. -/
def chunkSource (C : ChunkCipher Key) (key : ReadKey Key) (inner : Text → Option Bytes) (hash : Text) :
    Option Bytes :=
  match key with
  | none => inner hash
  | some r => ((inner hash).filter (C.blake3 · = hash)).bind fun blob =>
      (r.openAny "stored chunk".toList (decryptChunk C · blob)).toOption

/-- A local store reads what hashes to its name. -/
def Verifies (C : ChunkCipher Key) (inner : Text → Option Bytes) : Prop :=
  ∀ hash blob, inner hash = some blob → C.blake3 blob = hash

/-- No two blobs have this name. -/
def Unambiguous (C : ChunkCipher Key) (name : Text) : Prop :=
  ∀ blob blob', C.blake3 blob = name → C.blake3 blob' = name → blob = blob'

/-- A chunk list names bytes: its names are those of blobs that are read as their parts. -/
def NamesBytes (C : ChunkCipher Key) (key : ReadKey Key) (names : List Text) (bytes : Bytes) : Prop :=
  ∃ parts : List Bytes, parts.flatten = bytes ∧ names.Forall₂ (fun name part =>
    ∃ blob, BlobOf C key blob part ∧ C.blake3 blob = name) parts

section
variable {C : ChunkCipher Key} {key : ReadKey Key} {inner : Text → Option Bytes} {hash : Text}
  {names : List Text} {bytes bytes' part : Bytes} {r r' : Keyring Key}

/-- A blob is read as one part. -/
theorem BlobOf.eq (hC : C.Sound) {blob part' : Bytes} (h : BlobOf C key blob part)
    (h' : BlobOf C key blob part') : part = part' := by
  cases key with
  | none => exact h.symm.trans h'
  | some r => exact SealedBy.eq hC h h'

/-- What a chunk source reads has its name. -/
theorem blobOf_of_chunkSource (hC : C.Sound) (hv : Verifies C inner)
    (h : chunkSource C key inner hash = some part) :
    ∃ blob, BlobOf C key blob part ∧ C.blake3 blob = hash := by
  cases key with
  | none => exact ⟨part, rfl, hv _ _ h⟩
  | some r =>
    obtain ⟨blob, hblob, hopen⟩ := Option.bind_eq_some_iff.mp h
    obtain ⟨-, hhash⟩ := Option.filter_eq_some_iff.mp hblob
    cases ho : r.openAny "stored chunk".toList (decryptChunk C · blob) with
    | error e =>
      rw [ho] at hopen
      cases hopen
    | ok p =>
      rw [ho] at hopen
      obtain rfl : p = part := Option.some.inj hopen
      exact ⟨blob, (openAny_eq_ok_iff hC).mp ho, of_decide_eq_true hhash⟩

/-- **A chunk list is read back as the bytes it names, or not at all**, whatever the store holds. -/
theorem eq_of_assemble_names (hC : C.Sound) (hv : Verifies C inner)
    (hnames : NamesBytes C key names bytes) (hone : ∀ name ∈ names, Unambiguous C name)
    (h : assemble (chunkSource C key inner) names = some bytes') : bytes' = bytes := by
  obtain ⟨parts, rfl, hparts⟩ := hnames
  obtain ⟨parts', hread, rfl⟩ := Option.map_eq_some_iff.mp h
  suffices hsame : parts' = parts by rw [hsame]
  clear h
  induction hparts generalizing parts' with
  | nil =>
    cases hread
    rfl
  | @cons name part names parts hhead _ ih =>
    rw [List.mapM_cons] at hread
    obtain ⟨part', hpart', hread⟩ := Option.bind_eq_some_iff.mp hread
    obtain ⟨rest, hrest, hread⟩ := Option.bind_eq_some_iff.mp hread
    obtain rfl : part' :: rest = parts' := Option.some.inj hread
    obtain ⟨blob, hblob, hname⟩ := hhead
    obtain ⟨blob', hblob', hname'⟩ := blobOf_of_chunkSource hC hv hpart'
    obtain rfl := hone name List.mem_cons_self _ _ hname hname'
    rw [hblob.eq hC hblob', ih (fun name hn => hone name (List.mem_cons_of_mem _ hn)) _ hrest]

/-- A ring with more keys reads the same bytes. -/
theorem NamesBytes.mono (h : NamesBytes C (some r) names bytes)
    (hsub : ∀ (g : Nat) (k : Key), r.keys[g]? = some k → r'.keys[g]? = some k) :
    NamesBytes C (some r') names bytes := by
  obtain ⟨parts, hflat, hparts⟩ := h
  refine ⟨parts, hflat, hparts.imp ?_⟩
  rintro name part ⟨blob, hblob, hname⟩
  exact ⟨blob, SealedBy.mono hblob hsub, hname⟩

/-- What an upload seals under: nothing, or the newest key. -/
def ReadKey.writeKey (key : ReadKey Key) : Option Key := key.map (·.newest.2)

/-- **An upload names its bytes**: the chunk list that an uploader returns for a file. -/
theorem namesBytes_upload (hC : C.Sound) (key : ReadKey Key) {file : List Bytes} {names : List Text}
    {u u' : Uploader} {t : List (Sigma UploadOp.Ret)}
    (hrun : (u.uploadFile C.toChunkCrypto key.writeKey file).Trace t (.ok (names, u'))) :
    NamesBytes C key names file.flatten := by
  obtain rfl : names = _ :=
    (Uploader.uploadFile_returns C.toChunkCrypto key.writeKey file u).of_trace hrun
  refine ⟨file, rfl, ?_⟩
  rw [List.forall₂_map_left_iff]
  refine List.forall₂_same.mpr fun c _ => ?_
  cases key with
  | none => exact ⟨c, rfl, rfl⟩
  | some r =>
    refine ⟨encryptChunk C.toChunkCrypto r.newest.2 c, ⟨_, _, _, r.newest_key, ?_, rfl⟩, rfl⟩
    rw [List.length_take, hC.lawful.keyedHash_length, gcmNonceLen]
    decide

end

end Pear
