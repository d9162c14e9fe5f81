import Pear.Upload

/-!
# The uploader over any sink

`BatchUploader` against a `ChunkSink` of which only this is known: a presence check that succeeds
tells the truth about every hash, a put result that is `Ok` means the sink holds the chunk, and what
it holds it keeps. Any call may fail as a whole, a batch may fail entry by entry, and it may come
back with the wrong number of results. After any calls the three collections agree and no hash is lost
(`session_consistent`).

What a call of the uploader does is said over any programs that serve as the calls of a sink
(`Serves`). The relay client is such a sink, as its uploads are those of the uploader on it
(`flush_interp`, `bufferChunk_interp`) and a truthful relay lets it serve (`TruthfulRelay.serves`); so
a cycle's uploads that succeed leave a relay that has every chunk (`uploads_are_held`).
-/

namespace Pear

open Lib (Prog Machine Contract Outcome wp wp_bind wp_mono wp_invariant wp_of_safe wp_foldlM wp_done Run)

/-- A call of a sink (`ChunkSink`). -/
inductive SinkOp where
  /-- `has_many` -/
  | hasMany (hashes : List Text)
  /-- `put_many` -/
  | putMany (entries : List Entry)

/-- Its answer, or how it failed. -/
def SinkOp.Ret : SinkOp → Type
  | .hasMany _ => Except UploadError (List Bool)
  | .putMany _ => Except UploadError (List (Except (Text → UploadError) Bool))

/-- A program of the uploader; an error comes with the uploader as it leaves it. -/
abbrev SinkProg := Prog SinkOp SinkOp.Ret (UploadError × Uploader)

/-- One call. -/
def sinkCall (op : SinkOp) : SinkProg op.Ret := .call op .done

namespace Uploader

/-- `BatchUploader::flush`, on any sink. -/
def flushTo (u : Uploader) : SinkProg Uploader := do
  if u.pending = [] then return u
  match ← sinkCall (.hasMany (u.pending.map (·.1))) with
  | .error e => .fail (e, u)
  | .ok present =>
    let found := u.pending.zip present
    let toUpload := (found.filter (!·.2)).map (·.1)
    let u := ((found.filter (·.2)).map (·.1.1)).foldl confirm { u with pending := [] }
    match ← sinkCall (.putMany toUpload) with
    | .error e => .fail (e, u.keep toUpload)
    | .ok results =>
      if results.length ≠ toUpload.length then
        .fail (.misaligned results.length toUpload.length, u.keep toUpload)
      else
        let (u, kept, error) := settle (toUpload.zip results) u [] none
        match error with
        | some e => .fail (e, u.keep kept)
        | none => return u.keep kept

/-- `BatchUploader::buffer_chunk`, on any sink. -/
def bufferChunkTo (u : Uploader) (hash : Text) (data : Bytes) : SinkProg Uploader :=
  if hash ∈ u.seen ∨ hash ∈ u.pendingHashes then return u
  else
    let u := { u with
      pendingBytes := u.pendingBytes + data.length
      pendingHashes := u.pendingHashes.insert hash
      pending := u.pending ++ [(hash, data)] }
    if uploadFlushBytes ≤ u.pendingBytes then u.flushTo else return u

end Uploader

/-- A call of the uploader. -/
inductive UploadCall where
  | bufferChunk (hash : Text) (data : Bytes)
  | flush

/-- What the uploader does for it. -/
def UploadCall.run (u : Uploader) : UploadCall → SinkProg Uploader
  | .bufferChunk hash data => u.bufferChunkTo hash data
  | .flush => u.flushTo

/-- The hash it passes. -/
def UploadCall.hash? : UploadCall → Option Text
  | .bufferChunk hash _ => some hash
  | .flush => none

/-- One call of a session. The caller has the result, and the uploader goes on as the call left it,
also when it failed. -/
def sessionCall (s : Uploader × Except UploadError Unit) (c : UploadCall) :
    Prog SinkOp SinkOp.Ret Empty (Uploader × Except UploadError Unit) := do
  match ← (c.run s.1).attempt with
  | .ok u => return (u, .ok ())
  | .error (e, u) => return (u, .error e)

/-- Calls of a new uploader: how they leave it, and the result of the last. -/
def session (calls : List UploadCall) :
    Prog SinkOp SinkOp.Ret Empty (Uploader × Except UploadError Unit) :=
  calls.foldlM sessionCall (.new, .ok ())

/-! ## The relay client as a sink -/

/-- `ChunkSink` for `RelayClient` -/
def relayClient : (op : SinkOp) → UploadProg op.Ret
  | .hasMany hashes => hasMany hashes
  | .putMany entries => putMany entries

/-- The flush of a cycle is the flush on the relay client. -/
theorem Uploader.flush_interp (u : Uploader) : u.flush = u.flushTo.interp relayClient := by
  unfold flush flushTo
  split
  · rfl
  show _ = hasMany _ >>= _
  congr 1
  funext present
  cases present with
  | error e => rfl
  | ok present =>
    show _ = putMany _ >>= _
    dsimp only
    congr 1
    funext results
    cases results with
    | error e => rfl
    | ok results =>
      dsimp only [Prog.bind]
      split
      · rfl
      · generalize settle _ _ _ _ = out
        obtain ⟨u', kept, _ | e⟩ := out
        all_goals rfl

/-- And so is its buffering. -/
theorem Uploader.bufferChunk_interp (u : Uploader) (hash : Text) (data : Bytes) :
    u.bufferChunk hash data = (u.bufferChunkTo hash data).interp relayClient := by
  unfold bufferChunk bufferChunkTo
  dsimp only
  split
  · rfl
  split
  · exact flush_interp _
  · rfl

/-! ## What a sink promises -/

variable {W F A : Type}

/-- What the uploader relies on, of a sink in whose state `w` the hashes `held w` are held. A put
may come back with too many results or too few, and then nothing is known of its entries. -/
structure Truthful (M : Machine W SinkOp SinkOp.Ret F A) (held : W → Text → Prop) : Prop where
  hasMany : ∀ {hashes w present w'}, Outcome M (.hasMany hashes) w (.ok present, w') →
    List.Forall₂ (fun h p => p = true ↔ held w h) hashes present
  putMany : ∀ {entries w results w'}, Outcome M (.putMany entries) w (.ok results, w') →
    results.length = entries.length →
      ∀ r ∈ entries.zip results, ∀ stored, r.2 = .ok stored → held w' r.1.1
  keeps : ∀ {op w r w'}, Outcome M op w (r, w') → ∀ h, held w h → held w' h
  act : ∀ {a w w'}, M.act a w = some w' → ∀ h, held w h → held w' h

/-- Programs on a sink: others and every call keep what it holds. -/
def sinkContract {Op : Type} (held : W → Text → Prop) : Contract W Op where
  assume _ _ := True
  rely w w' := ∀ h, held w h → held w' h
  guarantee _ w w' := ∀ h, held w h → held w' h
  rely_refl _ _ h := h
  rely_trans h h' x hx := h' x (h x hx)

section
variable {Op : Type} {Ret : Op → Type} {ε α : Type} {M : Machine W Op Ret F A}
  {held : W → Text → Prop} {w : W}

/-- A program on a sink keeps what it holds. -/
theorem wp_keeps {Q : α → W → Prop} {p : Prog Op Ret ε α} (h : wp M (sinkContract held) Q p w) :
    wp M (sinkContract held) (fun a w' => Q a w' ∧ ∀ x, held w x → held w' x) p w :=
  wp_invariant (I := fun w' => ∀ x, held w x → held w' x) (fun _ _ _ _ => trivial)
    (fun _ _ hr hi => ⟨hr, fun x hx => hr x (hi x hx)⟩)
    (fun _ _ _ hi _ hg => ⟨fun x hx => hg x (hi x hx), hg⟩) h fun _ hx => hx

/-- Programs serve as the calls of a sink: what a presence check finds is held when it is done, and so
is what a put has confirmed. -/
structure Serves (M : Machine W Op Ret F A) (held : W → Text → Prop)
    (sink : (op : SinkOp) → Prog Op Ret ε op.Ret) : Prop where
  hasMany : ∀ hashes w, wp M (sinkContract held) (fun r w' => ∀ present, r = .ok present →
    List.Forall₂ (fun h p => p = true → held w' h) hashes present) (sink (.hasMany hashes)) w
  putMany : ∀ entries w, wp M (sinkContract held) (fun r w' => ∀ results, r = .ok results →
    results.length = entries.length →
      ∀ r ∈ entries.zip results, ∀ stored, r.2 = .ok stored → held w' r.1.1)
    (sink (.putMany entries)) w

/-- The calls of a sink that tells the truth. -/
theorem Truthful.serves {M : Machine W SinkOp SinkOp.Ret F A} (hM : Truthful M held) :
    Serves (ε := ε) M held fun op => .call op .done := by
  constructor
  · rintro hashes w w₁ hr - ⟨r, w₂⟩ hout
    refine ⟨hM.keeps hout, fun w₃ hr' present hpresent => ?_⟩
    dsimp only at hpresent
    subst hpresent
    refine List.Forall₂.imp (fun h p hiff hp => ?_) (hM.hasMany hout)
    exact hr' h (hM.keeps hout h (hiff.mp hp))
  · rintro entries w w₁ hr - ⟨r, w₂⟩ hout
    refine ⟨hM.keeps hout, fun w₃ hr' results hresults hlen x hx stored hstored => ?_⟩
    dsimp only at hresults
    subst hresults
    exact hr' _ (hM.putMany hout hlen x hx stored hstored)

end

namespace Uploader

/-- What the collections are of an uploader that was given these hashes, on a sink that holds those
of `held`: the buffer holds, in the order they first came, the hashes that are not confirmed. -/
structure Consistent (buffered : List Text) (u : Uploader) (held : Text → Prop) : Prop where
  pending : hashesOf u.pending = buffered.eraseDups.filter (· ∉ u.seen)
  nodup : (hashesOf u.pending).Nodup
  pendingHashes : ∀ h, h ∈ u.pendingHashes ↔ h ∈ hashesOf u.pending
  pendingBytes : u.pendingBytes = blobBytes u.pending
  seen : ∀ h ∈ u.seen, h ∈ buffered ∧ held h

/-- What an uploader becomes when the hashes `S` are confirmed and the rest goes back on the
buffer. -/
structure Confirms (S : List Text) (u u' : Uploader) : Prop where
  seen : ∀ h, h ∈ u'.seen ↔ h ∈ u.seen ∨ h ∈ S
  pendingHashes : ∀ h, h ∈ u'.pendingHashes ↔ h ∈ u.pendingHashes ∧ h ∉ S

variable {buffered : List Text} {u u' : Uploader} {held held' : Text → Prop} {S T : List Text}

theorem Confirms.refl (u : Uploader) : Confirms [] u u :=
  ⟨fun h => by simp, fun h => by simp⟩

/-- More confirmed. -/
theorem Confirms.trans {u'' : Uploader} (h : Confirms S u u') (h' : Confirms T u' u'') :
    Confirms (S ++ T) u u'' := by
  constructor
  · intro x
    rw [h'.seen, h.seen, List.mem_append, or_assoc]
  · intro x
    rw [h'.pendingHashes, h.pendingHashes, List.mem_append, not_or, and_assoc]

theorem confirm_confirms (u : Uploader) (hash : Text) : Confirms [hash] u (u.confirm hash) := by
  constructor
  · intro h
    rw [mem_confirm_seen, List.mem_singleton, or_comm]
  · intro h
    rw [mem_confirm_pendingHashes, List.mem_singleton, and_comm]

/-- The presence check confirms what it found. -/
theorem foldl_confirm_confirms : ∀ (S : List Text) (u : Uploader),
    Confirms S u (S.foldl confirm u)
  | [], u => .refl u
  | h :: S, u => (confirm_confirms u h).trans (foldl_confirm_confirms S (u.confirm h))

/-- Entries with an answer each, under distinct hashes: what the answer does not confirm is what has
none of the confirmed hashes. -/
theorem filter_confirmed {α : Type} (ok : Entry × α → Bool) {xs : List (Entry × α)}
    (hnodup : (hashesOf (xs.map (·.1))).Nodup) :
    (xs.filter (!ok ·)).map (·.1) =
      (xs.map (·.1)).filter fun e => e.1 ∉ hashesOf ((xs.filter ok).map (·.1)) := by
  rw [List.filter_map]
  refine congrArg _ (List.filter_congr fun x hx => ?_)
  rw [hashesOf, List.map_map] at hnodup
  have hiff : x.1.1 ∈ hashesOf ((xs.filter ok).map (·.1)) ↔ ok x = true := by
    constructor
    · intro hin
      obtain ⟨e, he, heq⟩ := List.mem_map.mp hin
      obtain ⟨y, hy, rfl⟩ := List.mem_map.mp he
      obtain ⟨hy, hok⟩ := List.mem_filter.mp hy
      have hyx : y = x := List.inj_on_of_nodup_map hnodup hy hx heq
      rwa [← hyx]
    · exact fun hok => List.mem_map_of_mem (List.mem_map_of_mem (List.mem_filter.mpr ⟨hx, hok⟩))
  simp [hiff]

/-- Settling a batch confirms what has an `Ok` result and keeps the rest; it fails exactly when
something is kept. -/
theorem settle_confirms : ∀ (results : List (Entry × Except (Text → UploadError) Bool))
    (u : Uploader) (kept : List Entry) (error : Option UploadError), ∃ u' error',
      settle results u kept error =
        (u', kept ++ (results.filter (!·.2.toBool)).map (·.1), error') ∧
      Confirms (hashesOf ((results.filter (·.2.toBool)).map (·.1))) u u' ∧
      (error' = none → error = none ∧ results.filter (!·.2.toBool) = [])
  | [], u, kept, error => ⟨u, error, by simp [settle], .refl u, fun h => ⟨h, rfl⟩⟩
  | (e, .ok stored) :: rest, u, kept, error => by
    let u₁ := if stored then { u with uploaded := u.uploaded + 1, bytes := u.bytes + e.2.length }
      else u
    have hu₁ : Confirms [] u u₁ := by
      dsimp only [u₁]
      split
      all_goals exact ⟨fun h => by simp, fun h => by simp⟩
    obtain ⟨u', error', hrun, hconf, herr⟩ := settle_confirms rest (u₁.confirm e.1) kept error
    exact ⟨u', error', hrun, hu₁.trans ((confirm_confirms u₁ e.1).trans hconf), herr⟩
  | (e, .error why) :: rest, u, kept, error => by
    obtain ⟨u', error', hrun, hconf, herr⟩ :=
      settle_confirms rest u (kept ++ [e]) (error <|> some (why e.1))
    refine ⟨u', error', ?_, hconf, fun h => ?_⟩
    · rw [settle, hrun, List.append_assoc]
      rfl
    · have := (herr h).1
      cases error <;> cases this

/-- **Confirming what the sink holds keeps an uploader consistent**, when everything else goes back
on the buffer. -/
theorem Consistent.keep {entries : List Entry} (h : Consistent buffered u held)
    (hc : Confirms S u u') (hentries : entries = u.pending.filter (·.1 ∉ S))
    (hS : ∀ x ∈ S, x ∈ hashesOf u.pending ∧ held' x) (hkeeps : ∀ x, held x → held' x) :
    Consistent buffered (u'.keep entries) held' := by
  have hhashes : hashesOf entries = (hashesOf u.pending).filter (· ∉ S) := by
    rw [hentries, hashesOf, hashesOf, List.filter_map]
    rfl
  refine ⟨?_, ?_, fun x => ?_, rfl, fun x hx => ?_⟩
  · show hashesOf entries = _
    rw [hhashes, h.pending, List.filter_filter]
    refine List.filter_congr fun x _ => ?_
    show _ = decide (x ∉ u'.seen)
    simp [hc.seen, and_comm]
  · show (hashesOf entries).Nodup
    rw [hhashes]
    exact h.nodup.filter _
  · show x ∈ u'.pendingHashes ↔ x ∈ hashesOf entries
    rw [hc.pendingHashes, hhashes, List.mem_filter, h.pendingHashes, decide_eq_true_eq]
  · rcases (hc.seen x).mp hx with hx | hx
    · exact ⟨(h.seen x hx).1, hkeeps x (h.seen x hx).2⟩
    · have hin := (hS x hx).1
      rw [h.pending] at hin
      exact ⟨List.mem_eraseDups.mp (List.mem_filter.mp hin).1, (hS x hx).2⟩

/-- On a sink that holds more. -/
theorem Consistent.mono (h : Consistent buffered u held) (hkeeps : ∀ x, held x → held' x) :
    Consistent buffered u held' :=
  { h with seen := fun x hx => ⟨(h.seen x hx).1, hkeeps x (h.seen x hx).2⟩ }

/-- **Every hash that was buffered is confirmed or waits.** -/
theorem Consistent.seen_or_pending (h : Consistent buffered u held) {x : Text}
    (hx : x ∈ buffered) : x ∈ u.seen ∨ x ∈ hashesOf u.pending := by
  by_cases hseen : x ∈ u.seen
  · exact .inl hseen
  · rw [h.pending]
    exact .inr (List.mem_filter.mpr ⟨List.mem_eraseDups.mpr hx, decide_eq_true hseen⟩)

/-- A hash is not both. -/
theorem Consistent.disjoint (h : Consistent buffered u held) {x : Text}
    (hx : x ∈ u.seen) : x ∉ hashesOf u.pending := by
  rw [h.pending]
  exact fun hin => of_decide_eq_true (List.mem_filter.mp hin).2 hx

/-- The presence check of a flush: what it finds is confirmed, and the rest goes on. -/
theorem Consistent.present {present : List Bool} (h : Consistent buffered u held)
    (htrue : List.Forall₂ (fun h p => p = true → held h) (u.pending.map (·.1)) present) :
    Consistent buffered
      ((((((u.pending.zip present).filter (·.2)).map (·.1.1)).foldl confirm
        { u with pending := [] }).keep (((u.pending.zip present).filter (!·.2)).map (·.1)))) held := by
  obtain ⟨hlen, hzip⟩ := List.forall₂_iff_zip.mp htrue
  have hfst : (u.pending.zip present).map (·.1) = u.pending :=
    List.map_fst_zip (by rw [← hlen, List.length_map])
  have hnodup : (hashesOf ((u.pending.zip present).map (·.1))).Nodup := by
    rw [hfst]
    exact h.nodup
  have hS : ((u.pending.zip present).filter (·.2)).map (·.1.1) =
      hashesOf (((u.pending.zip present).filter (·.2)).map (·.1)) := by
    rw [hashesOf, List.map_map]
    rfl
  rw [hS]
  have hconf := foldl_confirm_confirms
    (hashesOf (((u.pending.zip present).filter (·.2)).map (·.1))) { u with pending := [] }
  refine h.keep ⟨hconf.seen, hconf.pendingHashes⟩ ?_ (fun x hx => ?_) fun _ hx => hx
  · rw [filter_confirmed (·.2) hnodup, hfst]
  · obtain ⟨e, he, rfl⟩ := List.mem_map.mp hx
    obtain ⟨⟨e, b⟩, hb, rfl⟩ := List.mem_map.mp he
    obtain ⟨hmem, hb⟩ := List.mem_filter.mp hb
    refine ⟨List.mem_map_of_mem (List.of_mem_zip hmem).1, hzip ?_ hb⟩
    rw [List.zip_map_left]
    exact List.mem_map_of_mem (f := Prod.map (·.1) id) hmem

/-- The results of a flush: what was stored is confirmed and what failed goes back on the buffer. -/
theorem Consistent.settle {entries : List Entry}
    {results : List (Except (Text → UploadError) Bool)}
    (h : Consistent buffered (u.keep entries) held) (hlen : results.length = entries.length)
    (hput : ∀ r ∈ entries.zip results, ∀ stored, r.2 = .ok stored → held' r.1.1)
    (hkeeps : ∀ x, held x → held' x) :
    let out := Uploader.settle (entries.zip results) u [] none
    Consistent buffered (out.1.keep out.2.1) held' ∧ (out.2.2 = none → out.2.1 = []) := by
  have hfst : (entries.zip results).map (·.1) = entries := List.map_fst_zip hlen.ge
  have hnodup : (hashesOf ((entries.zip results).map (·.1))).Nodup := by
    rw [hfst]
    exact h.nodup
  obtain ⟨u', error, hrun, hconf, herr⟩ := settle_confirms (entries.zip results) u [] none
  rw [hrun]
  refine ⟨?_, fun hnone => ?_⟩
  · refine h.keep ⟨hconf.seen, hconf.pendingHashes⟩ ?_ (fun x hx => ?_) hkeeps
    · rw [List.nil_append, filter_confirmed (·.2.toBool) hnodup, hfst]
      rfl
    · obtain ⟨e, he, rfl⟩ := List.mem_map.mp hx
      obtain ⟨⟨e, r⟩, hr, rfl⟩ := List.mem_map.mp he
      obtain ⟨hmem, hok⟩ := List.mem_filter.mp hr
      refine ⟨List.mem_map_of_mem (List.of_mem_zip hmem).1, ?_⟩
      cases r with
      | ok stored => exact hput _ hmem stored rfl
      | error why => cases hok
  · rw [List.nil_append, (herr hnone).2, List.map_nil]

/-! ## Calls -/

variable {Op : Type} {Ret : Op → Type} {ε : Type} {M : Machine W Op Ret F A} {held : W → Text → Prop}
  {sink : (op : SinkOp) → Prog Op Ret ε op.Ret} {buffered : List Text} {u : Uploader} {w : W}

/-- What a call leaves: a consistent uploader, also when it fails, and nothing in the buffer when it
is a flush that succeeds. -/
def Leaves (held : W → Text → Prop) (buffered : List Text) (flushed : Prop) :
    Except (UploadError × Uploader) Uploader → W → Prop
  | .ok u, w => Consistent buffered u (held w) ∧ (flushed → u.pending = [])
  | .error (_, u), w => Consistent buffered u (held w)

/-- **A flush keeps an uploader consistent**, on each of its five exits. -/
theorem wp_flushTo (hS : Serves M held sink) (hu : Consistent buffered u (held w)) :
    wp M (sinkContract held) (Leaves held buffered True) (u.flushTo.attempt.interp sink) w := by
  unfold flushTo
  split
  · rename_i hempty
    exact fun w' hr => ⟨hu.mono hr, fun _ => hempty⟩
  refine wp_bind (wp_mono (wp_keeps (hS.hasMany _ w)) ?_)
  rintro present w₁ ⟨hpresent, hkeeps₁⟩
  have hu₁ := hu.mono hkeeps₁
  cases present with
  | error e => exact fun w' hr => hu₁.mono hr
  | ok present =>
    have hu₂ := hu₁.present (hpresent present rfl)
    refine wp_bind (wp_mono (wp_keeps (hS.putMany _ w₁)) ?_)
    rintro results w₂ ⟨hresults, hkeeps₂⟩
    cases results with
    | error e => exact fun w' hr => (hu₂.mono hkeeps₂).mono hr
    | ok results =>
      dsimp only [Prog.bind]
      split
      · exact fun w' hr => (hu₂.mono hkeeps₂).mono hr
      rename_i hlen
      have hlen := Decidable.not_not.mp hlen
      have hsettle := hu₂.settle hlen (hresults results rfl hlen) hkeeps₂
      generalize Uploader.settle _ _ _ _ = out at hsettle ⊢
      obtain ⟨u', kept, error⟩ := out
      obtain ⟨hcons, hnil⟩ := hsettle
      cases error with
      | some e => exact fun w' hr => hcons.mono hr
      | none => exact fun w' hr => ⟨hcons.mono hr, fun _ => hnil rfl⟩

/-- A hash that came before. -/
theorem Consistent.again (hu : Consistent buffered u (held w)) {hash : Text}
    (hknown : hash ∈ u.seen ∨ hash ∈ u.pendingHashes) :
    Consistent (buffered ++ [hash]) u (held w) := by
  have hin : hash ∈ buffered := by
    rcases hknown with hseen | hpending
    · exact (hu.seen hash hseen).1
    · rw [hu.pendingHashes, hu.pending] at hpending
      exact List.mem_eraseDups.mp (List.mem_filter.mp hpending).1
  have hdups : (buffered ++ [hash]).eraseDups = buffered.eraseDups := by
    rw [List.eraseDups_append]
    simp [List.removeAll, hin]
  exact { hu with
    pending := hdups ▸ hu.pending
    seen := fun x hx => ⟨List.mem_append_left _ (hu.seen x hx).1, (hu.seen x hx).2⟩ }

/-- A new hash joins the buffer. -/
theorem Consistent.join (hu : Consistent buffered u (held w)) {hash : Text} (data : Bytes)
    (hnew : ¬ (hash ∈ u.seen ∨ hash ∈ u.pendingHashes)) :
    Consistent (buffered ++ [hash]) { u with
      pendingBytes := u.pendingBytes + data.length
      pendingHashes := u.pendingHashes.insert hash
      pending := u.pending ++ [(hash, data)] } (held w) := by
  obtain ⟨hseen, hpending⟩ := not_or.mp hnew
  rw [hu.pendingHashes] at hpending
  have hnot : hash ∉ buffered := fun hin => (hu.seen_or_pending hin).elim hseen hpending
  have hdups : (buffered ++ [hash]).eraseDups = buffered.eraseDups ++ [hash] := by
    rw [List.eraseDups_append]
    simp [List.removeAll, hnot, List.eraseDups_cons]
  have hhashes : hashesOf (u.pending ++ [(hash, data)]) = hashesOf u.pending ++ [hash] :=
    List.map_append
  refine ⟨?_, ?_, fun x => ?_, ?_, fun x hx => ?_⟩
  · rw [hhashes, hdups, List.filter_append, hu.pending]
    simp [hseen]
  · rw [hhashes]
    exact List.nodup_append.mpr ⟨hu.nodup, List.nodup_singleton _, fun x hx y hy heq =>
      hpending (List.mem_singleton.mp hy ▸ heq ▸ hx)⟩
  · rw [hhashes, List.mem_append, List.mem_singleton, ← hu.pendingHashes,
      Std.ExtTreeSet.mem_insert, Std.LawfulEqCmp.compare_eq_iff_eq, or_comm, eq_comm]
  · show u.pendingBytes + data.length = _
    rw [hu.pendingBytes, blobBytes_append]
    simp [blobBytes]
  · exact ⟨List.mem_append_left _ (hu.seen x hx).1, (hu.seen x hx).2⟩

/-- **So does buffering a chunk**, which flushes when the buffer is full. -/
theorem wp_bufferChunkTo (hS : Serves M held sink) (hu : Consistent buffered u (held w)) (hash : Text)
    (data : Bytes) : wp M (sinkContract held) (Leaves held (buffered ++ [hash]) False)
      ((u.bufferChunkTo hash data).attempt.interp sink) w := by
  unfold bufferChunkTo
  split
  · rename_i hknown
    exact fun w' hr => ⟨(hu.again hknown).mono hr, False.elim⟩
  rename_i hnew
  dsimp only
  split
  · refine wp_mono (wp_flushTo hS (hu.join data hnew)) fun out w hleft => ?_
    cases out with
    | ok u => exact ⟨hleft.1, False.elim⟩
    | error e => exact hleft
  · exact fun w' hr => ⟨(hu.join data hnew).mono hr, False.elim⟩

end Uploader

/-- The hashes that calls buffer. -/
def bufferedHashes (calls : List UploadCall) : List Text := calls.filterMap UploadCall.hash?

/-- What a session has after some of its calls. -/
structure AfterCalls (held : Text → Prop) (done : List UploadCall)
    (s : Uploader × Except UploadError Unit) : Prop where
  consistent : s.1.Consistent (bufferedHashes done) held
  flushed : (∃ before, done = before ++ [.flush]) → s.2 = .ok () → s.1.pending = []

section
variable {M : Machine W SinkOp SinkOp.Ret F A} {held : W → Text → Prop}

/-- One call of a session. -/
theorem wp_sessionCall (hM : Truthful M held) {done : List UploadCall}
    {s : Uploader × Except UploadError Unit} (c : UploadCall) {w : W}
    (hs : AfterCalls (held w) done s) :
    wp M (sinkContract held) (fun s' w' => AfterCalls (held w') (done ++ [c]) s')
      (sessionCall s c) w := by
  have hdone : bufferedHashes (done ++ [c]) = bufferedHashes done ++ c.hash?.toList := by
    rw [bufferedHashes, List.filterMap_append]
    cases c <;> rfl
  have hlast : (∃ before, done ++ [c] = before ++ [.flush]) → c = .flush := by
    rintro ⟨before, heq⟩
    exact List.singleton_inj.mp (List.append_inj_right' heq rfl)
  have hcall : wp M (sinkContract held)
      (Uploader.Leaves held (bufferedHashes (done ++ [c])) (c = .flush))
      ((c.run s.1).attempt : Prog SinkOp SinkOp.Ret Empty _) w := by
    rw [hdone, ← Prog.interp_call (Prog.attempt _)]
    cases c with
    | bufferChunk hash data =>
      refine wp_mono (Uploader.wp_bufferChunkTo hM.serves hs.consistent hash data)
        fun out w hleft => ?_
      cases out with
      | ok u => exact ⟨hleft.1, fun h => nomatch h⟩
      | error e => exact hleft
    | flush =>
      rw [UploadCall.hash?, Option.toList_none, List.append_nil]
      refine wp_mono (Uploader.wp_flushTo hM.serves hs.consistent) fun out w hleft => ?_
      cases out with
      | ok u => exact ⟨hleft.1, fun _ => hleft.2 trivial⟩
      | error e => exact hleft
  refine wp_bind (wp_mono hcall fun out w hleft => ?_)
  cases out with
  | ok u =>
    exact fun w' hr => ⟨hleft.1.mono hr, fun hflush _ => hleft.2 (hlast hflush)⟩
  | error e =>
    exact fun w' hr => ⟨hleft.mono hr, fun _ hok => nomatch hok⟩

/-- A session keeps it. -/
theorem wp_session (hM : Truthful M held) (calls : List UploadCall) (w : W) :
    wp M (sinkContract held) (fun s w' => AfterCalls (held w') calls s) (session calls) w := by
  have hnew : AfterCalls (held w) [] (Uploader.new, .ok ()) := by
    refine ⟨⟨rfl, .nil, fun h => ?_, rfl, fun h hh => absurd hh Std.ExtTreeSet.not_mem_empty⟩,
      fun _ _ => rfl⟩
    exact iff_of_false Std.ExtTreeSet.not_mem_empty List.not_mem_nil
  refine wp_mono (wp_foldlM (I := fun rest s w' => ∃ done, calls = done ++ rest ∧
    AfterCalls (held w') done s) ?_ ?_ ⟨[], rfl, hnew⟩) ?_
  · rintro rest s w w' ⟨done, heq, hs⟩ hr
    exact ⟨done, heq, hs.consistent.mono hr, hs.flushed⟩
  · rintro c rest s w ⟨done, heq, hs⟩
    refine wp_mono (wp_sessionCall hM c hs) fun s' w' hs' => ⟨done ++ [c], ?_, hs'⟩
    rw [heq, List.append_assoc]
    rfl
  · rintro s w ⟨done, heq, hs⟩
    rw [heq, List.append_nil]
    exact hs

/-- Whatever is interleaved with a session keeps what the sink holds. -/
theorem admissible_of_truthful (hM : Truthful M held) {ε α : Type}
    (s : W × Prog SinkOp SinkOp.Ret ε α) (t : Lib.Tick F A) :
    Lib.Admissible M (sinkContract held) s t := by
  obtain ⟨w, p⟩ := s
  cases p <;> cases t
  all_goals first | exact trivial | exact fun w' hw => hM.act hw

/-- **The uploader never forgets a chunk.** After any calls, on any sink that tells the truth, the
collections agree with what was buffered; and after a flush that succeeds the sink holds every hash
that ever was. -/
theorem session_consistent (hM : Truthful M held) (calls : List UploadCall) {w w' : W}
    {ticks : List (Lib.Tick F A)} {u : Uploader} {result : Except UploadError Unit}
    (run : Run (Machine.step M) (fun _ _ => True) (w, session calls) ticks
      (w', .done (u, result))) :
    u.Consistent (bufferedHashes calls) (held w') ∧
      (∀ h ∈ u.seen, h ∉ hashesOf u.pending) ∧
      (∀ h ∈ bufferedHashes calls, h ∈ u.seen ∨ h ∈ hashesOf u.pending) ∧
      ((∃ before, calls = before ++ [.flush]) → result = .ok () →
        ∀ h ∈ bufferedHashes calls, held w' h) := by
  have hs : AfterCalls (held w') calls (u, result) :=
    wp_done (Q := fun s w' => AfterCalls (held w') calls s)
      (run.mono fun s t _ => admissible_of_truthful hM s t) (wp_session hM calls w)
  refine ⟨hs.consistent, fun h hh => hs.consistent.disjoint hh,
    fun h hh => hs.consistent.seen_or_pending hh, fun hflush hok h hh => ?_⟩
  have hempty : u.pending = [] := hs.flushed hflush hok
  rcases hs.consistent.seen_or_pending hh with hseen | hpending
  · exact (hs.consistent.seen h hseen).2
  · rw [hempty] at hpending
    cases hpending

/-- A store as a sink: it holds a list of hashes, and a call may fail as a whole. -/
def listSink : Machine (List Text) SinkOp SinkOp.Ret Unit Empty where
  exec
    | .hasMany hashes, w => (Except.ok (hashes.map (· ∈ w)), w)
    | .putMany entries, w =>
      (Except.ok (entries.map fun e => Except.ok (decide (e.1 ∉ w))), w ++ entries.map (·.1))
  fault
    | .hasMany _, _, w => (Except.error (.request "has_many".toList), w)
    | .putMany _, _, w => (Except.error (.request "put_many".toList), w)
  act a := nomatch a

theorem listSink_truthful : Truthful listSink fun w h => h ∈ w where
  hasMany hout := by
    cases hout
    rw [List.forall₂_map_right_iff]
    exact List.forall₂_same.mpr fun h _ => decide_eq_true_iff
  putMany hout hlen r hr stored hok := by
    cases hout
    exact List.mem_append_right _ (List.mem_map_of_mem (List.of_mem_zip hr).1)
  keeps {op w r w'} hout h hh := by
    cases op <;> cases hout
    all_goals first | exact hh | exact List.mem_append_left _ hh
  act {a} := nomatch a

/-- A put that fails, and the flush that sends the chunk again. -/
theorem session_consistent_retry : ∃ u : Uploader,
    Run (Machine.step listSink) (fun _ _ => True)
      ([], session [.bufferChunk "a".toList [1], .flush, .flush]) [.go, .fault (), .go, .go]
      (["a".toList], .done (u, .ok ())) ∧
    u.Consistent ["a".toList] (· ∈ ["a".toList]) ∧
    ∀ h ∈ ["a".toList], h ∈ ["a".toList] := by
  have hrun : ∃ u, Run (Machine.step listSink) (fun _ _ => True)
      ([], session [.bufferChunk "a".toList [1], .flush, .flush]) [.go, .fault (), .go, .go]
      (["a".toList], .done (u, .ok ())) :=
    ⟨_, .cons trivial rfl (.cons trivial rfl (.cons trivial rfl (.cons trivial rfl (.nil _))))⟩
  obtain ⟨u, hrun⟩ := hrun
  obtain ⟨hcons, -, -, hheld⟩ := session_consistent listSink_truthful _ hrun
  exact ⟨u, hrun, hcons, hheld ⟨[_, _], rfl⟩ rfl⟩

end

/-! ## The uploads of a cycle -/

/-- What an upload relies on, of a relay in whose state `w` the chunks `held w` are there: what it does
not report missing it has, what it confirms it has stored, and it keeps what it has. -/
structure TruthfulRelay (M : Machine W UploadOp UploadOp.Ret F A) (held : W → Text → Prop) : Prop where
  missing : ∀ {hashes w missing w'}, Outcome M (.missing hashes) w (.ok missing, w') →
    ∀ h ∈ hashes, h ∉ missing → held w' h
  putMany : ∀ {entries w results w'}, Outcome M (.putMany entries) w (.ok results, w') →
    results.length = entries.length →
      ∀ r ∈ entries.zip results, ∀ stored, r.2.confirmed = .ok stored → held w' r.1.1
  keeps : ∀ {op w r w'}, Outcome M op w (r, w') → ∀ h, held w h → held w' h
  act : ∀ {a w w'}, M.act a w = some w' → ∀ h, held w h → held w' h

section
variable {Key : Type} {M : Machine W UploadOp UploadOp.Ret F A} {held : W → Text → Prop} {w w' : W}
  {buffered : List Text} {u : Uploader} (C : ChunkCrypto Key) (key : Option Key)

/-- The value of a mapped result. -/
theorem of_map_eq_ok {ε α β : Type} {x : Except ε α} {f : α → β} {b : β} (h : x.map f = .ok b) :
    ∃ a, x = .ok a ∧ f a = b := by
  cases x with
  | ok a => exact ⟨a, rfl, Except.ok.inj h⟩
  | error e => cases h

/-- The presence checks of a batch list. -/
theorem wp_missingLoop (hM : TruthfulRelay M held) : ∀ (bs : List (List Text)) (w : W),
    wp M (sinkContract held) (fun r w' => ∀ missing, r = .ok missing →
      ∀ h ∈ bs.flatten, h ∉ missing → held w' h) (missingLoop bs) w
  | [], w => fun _ _ _ _ h hh => by cases hh
  | b :: bs, w => by
    rintro w₁ - - ⟨r, w₂⟩ hout
    refine ⟨hM.keeps hout, ?_⟩
    cases r with
    | error e => exact fun _ _ missing hmissing => by cases hmissing
    | ok found =>
      refine wp_bind (p := missingLoop bs) (wp_mono (wp_keeps (wp_missingLoop hM bs w₂)) ?_)
      rintro rest w₃ ⟨hrest, hkeeps⟩ w₄ hr missing hmissing h hh hnot
      obtain ⟨others, rfl, rfl⟩ := of_map_eq_ok hmissing
      obtain ⟨hfound, hothers⟩ := not_or.mp (List.mem_append.not.mp hnot)
      rcases List.mem_append.mp hh with hb | hbs
      · exact hr h (hkeeps h (hM.missing hout h hb hfound))
      · exact hr h (hrest others rfl h hbs hothers)

/-- The uploads of a batch list. -/
theorem wp_putLoop (hM : TruthfulRelay M held) : ∀ (bs : List (List Entry)) (w : W),
    wp M (sinkContract held) (fun r w' => ∀ results, r = .ok results →
      List.Forall₂ (fun e a => ∀ stored, PutResult.confirmed a = .ok stored → held w' e.1)
        bs.flatten results) (putLoop bs) w
  | [], w => fun _ _ results hresults => by
    cases hresults
    exact .nil
  | b :: bs, w => by
    rintro w₁ - - ⟨r, w₂⟩ hout
    refine ⟨hM.keeps hout, ?_⟩
    cases r with
    | error e => exact fun _ _ results hresults => by cases hresults
    | ok answers =>
      dsimp only [Prog.bind]
      split
      · exact fun _ _ results hresults => by cases hresults
      rename_i hlen
      have hlen := Decidable.not_not.mp hlen
      refine wp_bind (p := putLoop bs) (wp_mono (wp_keeps (wp_putLoop hM bs w₂)) ?_)
      rintro rest w₃ ⟨hrest, hkeeps⟩ w₄ hr results hresults
      obtain ⟨others, rfl, rfl⟩ := of_map_eq_ok hresults
      have hfirst : List.Forall₂ (fun e a => ∀ stored, PutResult.confirmed a = .ok stored →
          held w₄ e.1) b answers := by
        refine List.forall₂_iff_zip.mpr ⟨hlen.symm, fun {e a} hmem stored hstored => ?_⟩
        exact hr _ (hkeeps _ (hM.putMany hout hlen _ hmem stored hstored))
      have hothers : List.Forall₂ (fun e a => ∀ stored, PutResult.confirmed a = .ok stored →
          held w₄ e.1) bs.flatten others :=
        List.Forall₂.imp (fun e a h stored hstored => hr _ (h stored hstored)) (hrest others rfl)
      exact List.rel_append hfirst hothers

/-- **The relay client serves** as a sink, when the relay tells the truth. -/
theorem TruthfulRelay.serves (hM : TruthfulRelay M held) : Serves M held relayClient := by
  constructor
  · intro hashes w
    refine wp_bind (wp_mono (wp_missingLoop hM _ w) fun r w₁ hr w₂ hkeeps present hpresent => ?_)
    obtain ⟨missing, rfl, rfl⟩ := of_map_eq_ok hpresent
    rw [batches_flatten] at hr
    rw [List.forall₂_map_right_iff]
    refine List.forall₂_same.mpr fun h hh hnot => hkeeps h (hr missing rfl h hh ?_)
    exact of_decide_eq_true hnot
  · intro entries w
    refine wp_bind (wp_mono (wp_putLoop hM (putBatches entries) w)
      fun r w₁ hr w₂ hkeeps results hresults hlen x hx stored hstored => ?_)
    obtain ⟨answers, rfl, rfl⟩ := of_map_eq_ok hresults
    have hall := hr answers rfl
    rw [putBatches, batches_flatten, List.nil_append] at hall
    rw [List.zip_map_right] at hx
    obtain ⟨⟨e, a⟩, hmem, rfl⟩ := List.mem_map.mp hx
    exact hkeeps _ ((List.forall₂_iff_zip.mp hall).2 hmem stored hstored)

namespace Uploader

/-- A flush of a cycle. -/
theorem wp_flush (hM : TruthfulRelay M held) (hu : Consistent buffered u (held w)) :
    wp M (sinkContract held) (fun u w' => Consistent buffered u (held w') ∧ u.pending = []) u.flush
      w := by
  rw [flush_interp, Prog.interp_attempt]
  refine wp_bind (wp_mono (wp_flushTo hM.serves hu) fun out w hleft => ?_)
  cases out with
  | ok u => exact fun w' hr => ⟨hleft.1.mono hr, hleft.2 trivial⟩
  | error e => trivial

theorem wp_bufferChunk (hM : TruthfulRelay M held) (hu : Consistent buffered u (held w)) (hash : Text)
    (data : Bytes) : wp M (sinkContract held) (fun u w' => Consistent (buffered ++ [hash]) u (held w'))
      (u.bufferChunk hash data) w := by
  rw [bufferChunk_interp, Prog.interp_attempt]
  refine wp_bind (wp_mono (wp_bufferChunkTo hM.serves hu hash data) fun out w hleft => ?_)
  cases out with
  | ok u => exact fun w' hr => hleft.1.mono hr
  | error e => trivial

/-- A file of a cycle. -/
theorem wp_uploadFile (hM : TruthfulRelay M held) : ∀ (file : List Bytes) {buffered : List Text}
    {u : Uploader} {w : W}, Consistent buffered u (held w) → wp M (sinkContract held)
      (fun out w' => Consistent (buffered ++ file.map fun c => (chunkEntry C key c).1) out.2 (held w'))
      (uploadFile C key file u) w
  | [], buffered, u, w, hu => fun w' hr => by
    rw [List.map_nil, List.append_nil]
    exact hu.mono hr
  | c :: file, buffered, u, w, hu => by
    refine wp_bind (wp_mono (wp_bufferChunk hM hu _ _) fun u' w₁ hu' => ?_)
    refine wp_bind (wp_mono (wp_uploadFile hM file hu') fun out w₂ hout w₃ hr => ?_)
    rw [List.map_cons, List.append_cons]
    exact hout.mono hr

/-- The files of a cycle. -/
theorem wp_uploadFiles (hM : TruthfulRelay M held) : ∀ (files : List (List Bytes))
    {buffered : List Text} {u : Uploader} {w : W}, Consistent buffered u (held w) →
    wp M (sinkContract held) (fun out w' =>
      Consistent (buffered ++ files.flatten.map fun c => (chunkEntry C key c).1) out.2 (held w'))
      (uploadFiles C key files u) w
  | [], buffered, u, w, hu => fun w' hr => by
    rw [List.flatten_nil, List.map_nil, List.append_nil]
    exact hu.mono hr
  | file :: files, buffered, u, w, hu => by
    refine wp_bind (wp_mono (wp_uploadFile C key hM file hu) fun out w₁ hout => ?_)
    refine wp_bind (wp_mono (wp_uploadFiles hM files hout) fun rest w₂ hrest w₃ hr => ?_)
    rw [List.flatten_cons, List.map_append, ← List.append_assoc]
    exact hrest.mono hr

end Uploader

/-- A cycle's uploads that succeed return the names of the chunks and leave nothing in the buffer. -/
theorem wp_uploadCycle (hM : TruthfulRelay M held) (files : List (List Bytes)) (w : W) :
    wp M (sinkContract held) (fun out w' =>
      out.1 = files.map (·.map fun c => (chunkEntry C key c).1) ∧
        ∀ c ∈ files.flatten, held w' (chunkEntry C key c).1) (uploadCycle C key files) w := by
  have hnew : Uploader.Consistent [] Uploader.new (held w) :=
    ⟨rfl, .nil, fun h => iff_of_false Std.ExtTreeSet.not_mem_empty List.not_mem_nil, rfl,
      fun h hh => absurd hh Std.ExtTreeSet.not_mem_empty⟩
  refine wp_bind (wp_mono (wp_of_safe (Uploader.wp_uploadFiles C key hM files hnew)
    (Uploader.uploadFiles_returns C key files .new)) ?_)
  rintro ⟨lists, u⟩ w₁ ⟨hcons, hlists⟩
  refine wp_bind (wp_mono (Uploader.wp_flush hM hcons) ?_)
  rintro u' w₂ ⟨hcons', hempty⟩ w₃ hr
  refine ⟨hlists, fun c hc => hr _ ?_⟩
  rcases hcons'.seen_or_pending (List.mem_map_of_mem hc) with hseen | hpending
  · exact (hcons'.seen _ hseen).2
  · rw [hempty] at hpending
    cases hpending

/-- Whatever is interleaved with an upload keeps what the relay has. -/
theorem admissible_of_truthfulRelay (hM : TruthfulRelay M held) {ε α : Type}
    (s : W × Prog UploadOp UploadOp.Ret ε α) (t : Lib.Tick F A) :
    Lib.Admissible M (sinkContract held) s t := by
  obtain ⟨w, p⟩ := s
  cases p <;> cases t
  all_goals first | exact trivial | exact fun w' hw => hM.act hw

/-- **Uploads that succeed are held**: in every interleaving with other clients of a truthful relay, the
lists that a cycle's uploads return name each file's chunks, and the relay has every one. -/
theorem uploads_are_held (hM : TruthfulRelay M held) {files : List (List Bytes)}
    {ticks : List (Lib.Tick F A)} {lists : List (List Text)}
    (run : Run (Machine.step M) (fun _ _ => True) (w, uploadCycle C key files) ticks
      (w', .done (lists, u))) :
    lists = files.map (·.map fun c => (chunkEntry C key c).1) ∧
      ∀ names ∈ lists, ∀ name ∈ names, held w' name := by
  obtain ⟨rfl, hheld⟩ := wp_done (Q := fun out w' =>
      out.1 = files.map (·.map fun c => (chunkEntry C key c).1) ∧
        ∀ c ∈ files.flatten, held w' (chunkEntry C key c).1)
    (run.mono fun s t _ => admissible_of_truthfulRelay hM s t) (wp_uploadCycle C key hM files w)
  refine ⟨rfl, fun names hnames name hname => ?_⟩
  obtain ⟨file, hfile, rfl⟩ := List.mem_map.mp hnames
  obtain ⟨c, hc, rfl⟩ := List.mem_map.mp hname
  exact hheld c (List.mem_flatten.mpr ⟨file, hfile, hc⟩)

/-- A relay that has a list of chunks, to which other clients upload too. -/
def listRelay : Machine (List Text) UploadOp UploadOp.Ret Unit Text where
  exec
    | .missing hashes, w => (Except.ok (hashes.filter (· ∉ w)), w)
    | .putMany entries, w =>
      (Except.ok (entries.map fun e =>
          if e.1 ∈ w then ⟨e.1, "present".toList, none⟩ else storedResult e),
        w ++ entries.map (·.1))
  fault
    | .missing _, _, w => (Except.error "missing".toList, w)
    | .putMany _, _, w => (Except.error "put_many".toList, w)
  act hash w := some (w ++ [hash])

theorem listRelay_truthful : TruthfulRelay listRelay fun w h => h ∈ w where
  missing {hashes w missing w'} hout h hh hnot := by
    cases hout
    by_contra hnone
    exact hnot (List.mem_filter.mpr ⟨hh, decide_eq_true hnone⟩)
  putMany {entries w results w'} hout hlen x hx stored hstored := by
    cases hout
    exact List.mem_append_right _ (List.mem_map_of_mem (List.of_mem_zip hx).1)
  keeps {op w r w'} hout h hh := by
    cases op <;> cases hout
    all_goals first | exact hh | exact List.mem_append_left _ hh
  act {hash w w'} hact h hh := by
    cases hact
    exact List.mem_append_left _ hh

/-- What an upload has returned. -/
def returned : UploadProg (List (List Text) × Uploader) → Option (List (List Text))
  | .done (lists, _) => some lists
  | _ => none

/-- Two files are uploaded, and another client stores a chunk of them between the two requests. -/
theorem uploads_are_held_shared : ∃ w' lists u,
    Run (Machine.step listRelay) (fun _ _ => True)
      ([], uploadCycle digitSum (some ()) [[[1], [2]], [[3]]])
      [.go, .act (.replicate 64 '2'), .go] (w', .done (lists, u)) ∧
    lists = [[.replicate 64 '1', .replicate 64 '2'], [.replicate 64 '3']] ∧
      ∀ names ∈ lists, ∀ name ∈ names, name ∈ w' := by
  have hrun : (Lib.replay (Machine.step listRelay)
      ([], uploadCycle digitSum (some ()) [[[1], [2]], [[3]]])
      [.go, .act (.replicate 64 '2'), .go]).bind (fun s => returned s.2) =
        some [[.replicate 64 '1', .replicate 64 '2'], [.replicate 64 '3']] := by
    decide +kernel
  obtain ⟨⟨w', p⟩, hs, hreturned⟩ := Option.bind_eq_some_iff.mp hrun
  unfold returned at hreturned
  dsimp only at hreturned
  split at hreturned
  · rename_i lists u
    have run := Run.of_replay (C := fun _ _ => True) (fun _ _ _ => trivial) hs
    exact ⟨w', lists, u, run, Option.some.inj hreturned,
      (uploads_are_held digitSum (some ()) listRelay_truthful run).2⟩
  · cases hreturned

end

end Pear
