import Pear.Text
import Pear.Lib.Maps

/-!
# Manifests

A manifest maps relative paths to file entries (`manifest.rs`). `diff` lists what changed between
two of them, and `validate` is the gate every manifest from disk or from the network passes: every
key is a canonical path below the workspace and outside `.pear`, every chunk reference is a digest,
and no key is a directory of another. `validate_eq_ok_iff` reads an accepted manifest off as the
structure `Valid` of its file map, which is what the merge and the apply rely on.
-/

namespace Pear

/-! ## The data -/

/-- The state of one file: its size, permission bits, modification time and the hashes of its
chunks in order. -/
structure FileEntry where
  size : Nat
  mode : Nat
  mtimeSecs : Int
  mtimeNanos : Int
  chunks : List Text
deriving DecidableEq

/-- The files of a manifest, in the order of their paths. -/
abbrev FileMap := Std.ExtTreeMap Text FileEntry compare

/-- The state of a workspace at one point in time. -/
structure Manifest where
  version : Nat
  workspaceId : Text
  scannedAtSecs : Int
  files : FileMap
deriving DecidableEq

/-- The manifest format this code writes (`FORMAT_VERSION`). -/
def formatVersion : Nat := 1

/-- The manifest of a workspace with no files. -/
def Manifest.new (workspaceId : Text) : Manifest :=
  { version := formatVersion, workspaceId, scannedAtSecs := 0, files := ∅ }

/-- What `diff` reports, each list in path order. -/
structure ManifestDiff where
  added : List Text := []
  changed : List Text := []
  deleted : List Text := []
deriving DecidableEq

/-- The paths that must be added, changed and deleted to get from `old` to `new`. -/
def diff (old new : FileMap) : ManifestDiff where
  added := new.keys.filter fun p => old[p]? = none
  changed := new.keys.filter fun p => old[p]? ≠ none ∧ old[p]? ≠ new[p]?
  deleted := old.keys.filter fun p => new[p]? = none

section
variable {old new : FileMap} {p : Text}

/-- The paths `diff` reports as added. -/
theorem mem_added : p ∈ (diff old new).added ↔ old[p]? = none ∧ new[p]? ≠ none := by
  simp only [diff, List.mem_filter, Lib.mem_keys_iff, decide_eq_true_eq]
  exact and_comm

/-- The paths `diff` reports as changed. -/
theorem mem_changed : p ∈ (diff old new).changed ↔
    old[p]? ≠ none ∧ new[p]? ≠ none ∧ old[p]? ≠ new[p]? := by
  simp only [diff, List.mem_filter, Lib.mem_keys_iff, decide_eq_true_eq]
  tauto

/-- The paths `diff` reports as deleted. -/
theorem mem_deleted : p ∈ (diff old new).deleted ↔ old[p]? ≠ none ∧ new[p]? = none := by
  simp only [diff, List.mem_filter, Lib.mem_keys_iff, decide_eq_true_eq]

end

/-! ## Validation -/

/-- Why a manifest is refused. The constructors carry the values the messages quote: "empty path in
manifest", "non-canonical path {rel} in manifest", "unsafe path {rel} in manifest", "path {rel}
targets pear metadata", "invalid chunk hash {hash} for {rel} in manifest", and "path {path}
conflicts with {ancestor}: a file cannot also be a directory". -/
inductive ManifestError where
  | emptyPath
  | nonCanonicalPath (rel : Text)
  | unsafePath (rel : Text)
  | targetsPearMetadata (rel : Text)
  | invalidChunkHash (hash rel : Text)
  | fileIsDirectory (path ancestor : Text)
deriving DecidableEq

/-- The directory that holds pear's own state. -/
def pearDir : Text := ".pear".toList

/-- `if c { bail!(e) }`. -/
def refuseIf {ε : Type} (c : Prop) [Decidable c] (e : ε) : Except ε Unit :=
  if c then throw e else pure ()

/-- A key must be a canonical relative path outside `.pear` (`validate_path`). -/
def validatePath (rel : Text) : Except ManifestError Unit := do
  refuseIf (rel = []) .emptyPath
  refuseIf ((rel.splitOn '/').any (· = [])) (.nonCanonicalPath rel)
  forM (components rel) fun c => refuseIf (c.name? = none) (.unsafePath rel)
  match components rel with
  | .normal first :: _ => refuseIf (eqIgnoreAsciiCase first pearDir) (.targetsPearMetadata rel)
  | _ => pure ()

/-- A chunk reference is 64 lowercase hex digits (`is_chunk_hash`). -/
def isChunkHash (hash : Text) : Bool :=
  hash.length = 64 && hash.all fun c => ('0' ≤ c && c ≤ '9') || ('a' ≤ c && c ≤ 'f')

/-- Reject keys that could escape or alias, malformed chunk references, and a file that is also a
directory (`validate`). -/
def validate (m : Manifest) : Except ManifestError Unit := do
  forM m.files.toList fun (rel, entry) => do
    validatePath rel
    forM entry.chunks fun hash => refuseIf (isChunkHash hash = false) (.invalidChunkHash hash rel)
  forM m.files.keys fun path =>
    forM (ancestors path) fun ancestor =>
      refuseIf (m.files[ancestor]? ≠ none) (.fileIsDirectory path ancestor)

/-- A path `validatePath` accepts, by its parts between separators. -/
structure ValidPath (p : Text) : Prop where
  /-- No part is empty, and none climbs. -/
  part : ∀ c ∈ p.splitOn '/', c ≠ [] ∧ c ≠ ['.', '.']
  /-- The first part is neither `.` nor `.pear` in any case. -/
  first : ∀ c, (p.splitOn '/').head? = some c → c ≠ ['.'] ∧ eqIgnoreAsciiCase c pearDir = false

/-- A file map whose manifest `validate` accepts. -/
structure Valid (files : FileMap) : Prop where
  path : ∀ p : Text, files[p]? ≠ none → ValidPath p
  hash : ∀ (p : Text) (e : FileEntry), files[p]? = some e → ∀ h ∈ e.chunks, isChunkHash h = true
  /-- A file is not also a directory. -/
  noDir : ∀ p : Text, files[p]? ≠ none → ∀ a ∈ ancestors p, files[a]? = none

section
variable {ε : Type}

/-- A refusal passes when its condition fails. -/
@[simp] theorem refuseIf_eq_ok_iff {c : Prop} [Decidable c] {e : ε} :
    refuseIf c e = .ok () ↔ ¬ c := by
  by_cases h : c <;> simp [refuseIf, h, throw, throwThe, MonadExceptOf.throw, pure, Except.pure]

/-- A computation in `Except` that returns does so in both its halves. -/
theorem bind_eq_ok_iff {α β : Type} {x : Except ε α} {f : α → Except ε β} {b : β} :
    (x >>= f) = .ok b ↔ ∃ a, x = .ok a ∧ f a = .ok b := by
  cases x <;> simp [bind, Except.bind]

/-- What follows a refusal runs when its condition fails. -/
theorem refuseIf_bind_eq_ok_iff {α : Type} {c : Prop} [Decidable c] {e : ε} {f : Unit → Except ε α}
    {a : α} : (refuseIf c e >>= f) = .ok a ↔ ¬ c ∧ f () = .ok a := by
  rw [bind_eq_ok_iff]
  constructor
  · rintro ⟨⟨⟩, hc, hf⟩
    exact ⟨refuseIf_eq_ok_iff.mp hc, hf⟩
  · rintro ⟨hc, hf⟩
    exact ⟨(), refuseIf_eq_ok_iff.mpr hc, hf⟩

/-- Two checks in a row pass when both do. -/
theorem seq_eq_ok_iff {x y : Except ε Unit} : (do x; y) = .ok () ↔ x = .ok () ∧ y = .ok () := by
  cases x <;> simp [bind, Except.bind]

/-- A check over a list passes when it passes on every element. -/
theorem forM_eq_ok_iff {α : Type} {f : α → Except ε Unit} :
    ∀ {xs : List α}, forM xs f = .ok () ↔ ∀ x ∈ xs, f x = .ok ()
  | [] => by simp [pure, Except.pure]
  | x :: xs => by
    have ih : forM xs f = .ok () ↔ ∀ x ∈ xs, f x = .ok () := forM_eq_ok_iff
    rw [List.forM_cons, List.forall_mem_cons, ← ih]
    exact seq_eq_ok_iff

end

/-- The components of a path without empty parts: its first part, then the rest. -/
theorem components_of_no_empty {p c : Text} {cs : List Text} (hp : p.splitOn '/' = c :: cs)
    (h : ∀ c ∈ p.splitOn '/', c ≠ []) :
    components p = (if c = ['.'] then .curDir else Component.ofPart c) ::
      (cs.filter (· ≠ ['.'])).map Component.ofPart := by
  have hslash : p.head? ≠ some '/' := by
    intro hh
    obtain ⟨xs, rfl⟩ : ∃ xs, p = '/' :: xs := by
      cases p with
      | nil => simp at hh
      | cons x xs => exact ⟨xs, by simpa using hh⟩
    refine h [] ?_ rfl
    have hs := List.splitOn_append_cons_self (a := '/') [] xs
    rw [List.nil_append] at hs
    simp [hs]
  rw [hp] at h
  rw [List.forall_mem_cons] at h
  have hcs : (cs.filter fun d => d ≠ [] ∧ d ≠ ['.']) = cs.filter (· ≠ ['.']) :=
    List.filter_congr fun d hd => by simp [h.2 d hd]
  rw [components, if_neg hslash, hp, List.head?_cons]
  by_cases hc : c = ['.']
  · subst hc
    simpa using congrArg _ hcs
  · simp [hc, h.1]
    simpa using congrArg _ hcs

/-- Only `..` has no name among the parts that are kept. -/
theorem ofPart_name?_eq_none_iff {c : Text} :
    (Component.ofPart c).name? = none ↔ c = ['.', '.'] := by
  by_cases h : c = ['.', '.'] <;> simp [Component.ofPart, Component.name?, h]

/-- The path check, part by part. -/
theorem validatePath_eq_ok_iff {p : Text} : validatePath p = .ok () ↔ ValidPath p := by
  obtain ⟨c, cs, hp⟩ : ∃ c cs, p.splitOn '/' = c :: cs :=
    List.exists_cons_of_ne_nil (List.splitOn_ne_nil _ _)
  by_cases hne : ∀ d ∈ p.splitOn '/', d ≠ []
  · have hp0 : p ≠ [] := fun h => by subst h; simp at hne
    have hany : ¬ ((p.splitOn '/').any (· = [])) = true := by
      simpa only [List.any_eq_true, decide_eq_true_eq, not_exists, not_and] using hne
    have hcomp := components_of_no_empty hp hne
    simp only [validatePath, seq_eq_ok_iff, forM_eq_ok_iff, refuseIf_eq_ok_iff, hp0, hany,
      Bool.false_eq_true, not_false_eq_true, true_and]
    rw [hcomp]
    by_cases h1 : c = ['.']
    · constructor
      · rintro ⟨h, -⟩
        exact absurd rfl (h .curDir (by simp [h1]))
      · exact fun h => absurd h1 (h.first c (by simp [hp])).1
    by_cases h2 : c = ['.', '.']
    · constructor
      · rintro ⟨h, -⟩
        exact absurd (ofPart_name?_eq_none_iff.mpr h2) (h (.ofPart c) (by simp [h1]))
      · exact fun h => absurd h2 (h.part c (by simp [hp])).2
    rw [if_neg h1, show Component.ofPart c = .normal c by simp [Component.ofPart, h2]]
    simp only [List.forall_mem_cons, refuseIf_eq_ok_iff, Bool.not_eq_true]
    constructor
    · rintro ⟨⟨-, hrest⟩, hpear⟩
      refine ⟨fun d hd => ⟨hne d hd, ?_⟩, fun d hd => ?_⟩
      · rw [hp, List.mem_cons] at hd
        rcases hd with rfl | hd
        · exact h2
        · rintro rfl
          exact hrest (.ofPart ['.', '.']) (List.mem_map_of_mem (by simpa using hd)) rfl
      · obtain rfl : c = d := by simpa [hp] using hd
        exact ⟨h1, hpear⟩
    · refine fun h => ⟨⟨by simp [Component.name?], fun x hx => ?_⟩, (h.first c (by simp [hp])).2⟩
      obtain ⟨d, hd, rfl⟩ := List.mem_map.mp hx
      rw [ofPart_name?_eq_none_iff]
      exact (h.part d (by simp [hp, (List.mem_filter.mp hd).1])).2
  · have hany : (p.splitOn '/').any (· = []) = true := by
      push Not at hne
      simpa only [List.any_eq_true, decide_eq_true_eq, exists_eq_right] using hne
    constructor
    · intro h
      simp only [validatePath, seq_eq_ok_iff, refuseIf_eq_ok_iff] at h
      exact absurd hany h.2.1
    · exact fun h => absurd (fun d hd => (h.part d hd).1) hne

/-- **An accepted manifest is a valid file map.** -/
theorem validate_eq_ok_iff {m : Manifest} : validate m = .ok () ↔ Valid m.files := by
  simp only [validate, seq_eq_ok_iff, forM_eq_ok_iff, validatePath_eq_ok_iff, refuseIf_eq_ok_iff,
    Prod.forall, Std.ExtTreeMap.mem_toList_iff_getElem?_eq_some, Lib.mem_keys_iff]
  constructor
  · rintro ⟨hentry, hdir⟩
    refine ⟨fun p hp => ?_, fun p e he h hh => ?_, fun p hp a ha => ?_⟩
    · obtain ⟨e, he⟩ := Option.ne_none_iff_exists'.mp hp
      exact (hentry p e he).1
    · simpa using (hentry p e he).2 h hh
    · simpa using hdir p hp a ha
  · intro h
    refine ⟨fun p e he => ⟨h.path p (by simp [he]), fun x hx => by simp [h.hash p e he x hx]⟩,
      fun p hp a ha => by simp [h.noDir p hp a ha]⟩

end Pear
