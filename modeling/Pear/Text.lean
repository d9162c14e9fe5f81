import Mathlib

/-!
# Strings and paths

The parts of Rust's `str` and `std::path` that manifests, the merge and the apply use. A string is
its list of characters. `rsplit` is `rfind` with the two slices taken around the hit, `ancestors`
the loop that walks a `/`-separated path up to its first component (`ancestors_eq_rsplit`), and
`components` is `Path::components` on Unix, which drops empty and inner `.` components. The place a
manifest key names on disk is its list of ordinary components (`loc`), so `a/./b` and `a/b` are one
place (`loc_dot_alias`).
-/

namespace Pear

/-- A Rust string: its characters in order. -/
abbrev Text := List Char

/-- The laws of the comparisons that every lookup of a text or a pair of texts rests on. -/
instance lawfulBEq_text : LawfulBEq Text := inferInstance

instance lawfulBEq_row : LawfulBEq (Text × Text) := inferInstance

/-- The content of a file or a chunk. -/
abbrev Bytes := List UInt8

/-! ## The last occurrence of a separator -/

/-- The string around its last `c`: what `rfind(c)` and the slices before and after the hit give. -/
def rsplit (c : Char) : Text → Option (Text × Text)
  | [] => none
  | x :: xs =>
    match rsplit c xs with
    | some (a, b) => some (x :: a, b)
    | none => if x = c then some ([], xs) else none

/-- There is no last `c` exactly when `c` does not occur. -/
theorem rsplit_eq_none {c : Char} : ∀ {s : Text}, rsplit c s = none ↔ c ∉ s
  | [] => by simp [rsplit]
  | x :: xs => by
    have ih := rsplit_eq_none (c := c) (s := xs)
    unfold rsplit
    cases h : rsplit c xs with
    | some ab =>
      rw [h] at ih
      have hc : c ∈ xs := by simpa using ih
      simp [hc]
    | none =>
      have hc : c ∉ xs := ih.mp h
      by_cases hx : x = c
      · simp [hx]
      · simp [hx, hc, Ne.symm hx]

/-- The split at the last `c` puts the string back together, and leaves no `c` behind. -/
theorem rsplit_eq_some {c : Char} : ∀ {s a b : Text},
    rsplit c s = some (a, b) ↔ s = a ++ c :: b ∧ c ∉ b
  | [], a, b => by simp [rsplit]
  | x :: xs, a, b => by
    unfold rsplit
    cases h : rsplit c xs with
    | some ab =>
      obtain ⟨a', b'⟩ := ab
      obtain ⟨hxs, hb'⟩ := rsplit_eq_some.mp h
      constructor
      · rintro ⟨⟩
        exact ⟨by simp [hxs], hb'⟩
      · rintro ⟨he, hb⟩
        cases a with
        | nil =>
          obtain ⟨-, rfl⟩ : x = c ∧ xs = b := by simpa using he
          simp [hxs] at hb
        | cons y a =>
          obtain ⟨rfl, hxs'⟩ : x = y ∧ xs = a ++ c :: b := by simpa using he
          have := rsplit_eq_some.mpr ⟨hxs', hb⟩
          rw [h] at this
          cases this
          rfl
    | none =>
      have hc : c ∉ xs := rsplit_eq_none.mp h
      constructor
      · intro he
        by_cases hx : x = c
        · rw [if_pos hx] at he
          cases he
          exact ⟨by simp [hx], hc⟩
        · simp [hx] at he
      · rintro ⟨he, hb⟩
        cases a with
        | nil =>
          obtain ⟨rfl, rfl⟩ : x = c ∧ xs = b := by simpa using he
          simp
        | cons y a =>
          obtain ⟨-, hxs'⟩ : x = y ∧ xs = a ++ c :: b := by simpa using he
          simp [hxs'] at hc

/-! ## Directory prefixes -/

/-- The proper directory prefixes of a path, longest first: the values `rest` takes in
`while let Some(idx) = rest.rfind('/') { rest = &rest[..idx]; … }`. -/
def ancestors : Text → List Text
  | [] => []
  | x :: xs => (ancestors xs).map (x :: ·) ++ if x = '/' then [[]] else []

/-- A path's directory prefixes are what stands before one of its separators. -/
theorem mem_ancestors : ∀ {p q : Text}, q ∈ ancestors p ↔ ∃ r, p = q ++ '/' :: r
  | [], q => by simp [ancestors]
  | x :: xs, q => by
    simp only [ancestors, List.mem_append, List.mem_map]
    constructor
    · rintro (⟨q', hq', rfl⟩ | hq)
      · obtain ⟨r, rfl⟩ := mem_ancestors.mp hq'
        exact ⟨r, rfl⟩
      · by_cases hx : x = '/'
        · subst hx
          obtain rfl : q = [] := by simpa using hq
          exact ⟨xs, rfl⟩
        · simp [hx] at hq
    · rintro ⟨r, hr⟩
      cases q with
      | nil =>
        obtain ⟨rfl, rfl⟩ : x = '/' ∧ xs = r := by simpa using hr
        exact .inr (by simp)
      | cons y q =>
        obtain ⟨rfl, hxs⟩ : x = y ∧ xs = q ++ '/' :: r := by simpa using hr
        exact .inl ⟨q, mem_ancestors.mpr ⟨r, hxs⟩, rfl⟩

/-- The loop of the source: while the path still has a separator, cut at the last one. -/
theorem ancestors_eq_rsplit (p : Text) :
    ancestors p = match rsplit '/' p with
      | none => []
      | some (a, _) => a :: ancestors a := by
  induction p with
  | nil => rfl
  | cons x xs ih =>
    simp only [ancestors, rsplit]
    rw [ih]
    cases h : rsplit '/' xs with
    | none => by_cases hx : x = '/' <;> simp [hx, ancestors]
    | some ab => simp [ancestors]

/-- A prefix of a prefix is a prefix. -/
theorem ancestors_trans {p q r : Text} (hpq : p ∈ ancestors q) (hqr : q ∈ ancestors r) :
    p ∈ ancestors r := by
  obtain ⟨s, rfl⟩ := mem_ancestors.mp hpq
  obtain ⟨t, rfl⟩ := mem_ancestors.mp hqr
  exact mem_ancestors.mpr ⟨s ++ '/' :: t, by simp⟩

/-- Two paths that differ only after their last separator have the same directory prefixes. -/
theorem ancestors_append_of_not_mem {dir a b : Text} (ha : '/' ∉ a) (hb : '/' ∉ b) :
    ancestors (dir ++ a) = ancestors (dir ++ b) := by
  have flat : ∀ s : Text, '/' ∉ s → ancestors s = [] := by
    intro s hs
    rw [ancestors_eq_rsplit, rsplit_eq_none.mpr hs]
  induction dir with
  | nil => rw [List.nil_append, List.nil_append, flat a ha, flat b hb]
  | cons x xs ih => simp only [List.cons_append, ancestors, ih]

/-! ## Path components -/

/-- A component of a path (`std::path::Component` on Unix). -/
inductive Component where
  | rootDir
  | curDir
  | parentDir
  | normal (name : Text)
deriving DecidableEq

/-- The name of an ordinary component. -/
def Component.name? : Component → Option Text
  | .normal n => some n
  | _ => none

/-- One part between separators, read as a component. -/
def Component.ofPart (c : Text) : Component :=
  if c = ['.', '.'] then .parentDir else .normal c

/-- `Path::components` on Unix: a leading `/` is the root, a leading `.` is kept, and empty and
other `.` parts are dropped. -/
def components (s : Text) : List Component :=
  (if s.head? = some '/' then [.rootDir]
    else if (s.splitOn '/').head? = some ['.'] then [.curDir] else []) ++
  ((s.splitOn '/').filter fun c => c ≠ [] ∧ c ≠ ['.']).map Component.ofPart

/-- The final component starts with `.env`: the rule the scan and the relay's commit check share
(`is_dotenv`). -/
def isDotenv (path : Text) : Bool :=
  ".env".toList.isPrefixOf ((path.splitOn '/').getLast?.getD path)

/-- `str::eq_ignore_ascii_case`. -/
def eqIgnoreAsciiCase (a b : Text) : Bool :=
  a.map Char.toLower = b.map Char.toLower

/-- A place on disk, relative to the workspace root: the names on the way down to it. -/
abbrev Loc := List Text

/-- The law of the order that maps by place rest on. -/
instance transOrd_loc : Std.TransOrd Loc := inferInstance

/-- The place a relative path names: its ordinary components in order. -/
def loc (p : Text) : Loc := (components p).filterMap Component.name?

/-- A place is the parts between separators that name something. -/
theorem loc_eq_parts (p : Text) :
    loc p = (p.splitOn '/').filter fun c => c ≠ [] ∧ c ≠ ['.'] ∧ c ≠ ['.', '.'] := by
  have parts : ∀ cs : List Text,
      ((cs.filter fun c => c ≠ [] ∧ c ≠ ['.']).map Component.ofPart).filterMap Component.name? =
        cs.filter fun c => c ≠ [] ∧ c ≠ ['.'] ∧ c ≠ ['.', '.'] := by
    intro cs
    induction cs with
    | nil => rfl
    | cons c cs ih =>
      by_cases h0 : c = []
      · simpa [h0] using ih
      by_cases h1 : c = ['.']
      · simpa [h1] using ih
      by_cases h2 : c = ['.', '.']
      · simpa [h2, Component.ofPart, Component.name?, List.filterMap_cons] using ih
      · simpa [h0, h1, h2, Component.ofPart, Component.name?] using ih
  have lead : ((if p.head? = some '/' then [Component.rootDir]
      else if (p.splitOn '/').head? = some ['.'] then [.curDir] else []) :
        List Component).filterMap Component.name? = [] := by
    split
    · rfl
    · split <;> rfl
  rw [loc, components, List.filterMap_append, lead, parts, List.nil_append]

/-- Joining with a separator joins the places. -/
theorem loc_join (a b : Text) : loc (a ++ '/' :: b) = loc a ++ loc b := by
  simp only [loc_eq_parts, List.splitOn_append_cons_self, List.filter_append]

/-- Two different keys can name one file: an inner `.` component vanishes. -/
theorem loc_dot_alias (a b : Text) : loc (a ++ '/' :: '.' :: '/' :: b) = loc (a ++ '/' :: b) := by
  have h := loc_join ['.'] b
  rw [loc_join, loc_join]
  exact congrArg (loc a ++ ·) h

end Pear
