import Mathlib

/-!
# A file tree

A POSIX-like tree of directories, regular files, symbolic links and other nodes, by location below
a root directory, which is not a node itself. What is not at the root is in a directory: `put` and
`remove` are the only ways to change a tree, and refuse what would break that. A path is walked hop
by hop and links are followed (`locate`), at the last name only where the call follows it; a link may
lead out of the tree.

`content` is what a location holds that is no directory. Every call changes the content of the
locations it resolves to and of no other (`content_unlink`, `content_rename`, …), and a path without
links on its way resolves to itself (`Real.locate`).
-/

namespace Pear.Lib

/-- Why a call fails. -/
inductive Errno where
  | notFound
  | notADirectory
  | isADirectory
  | directoryNotEmpty
  | tooManyLinks
  | alreadyExists
  | other
deriving DecidableEq

/-- One step of a link's target. -/
inductive Hop (N : Type) where
  | root
  | up
  | down (n : N)
deriving DecidableEq

/-- A file's metadata. -/
structure Attr where
  mode : Nat
  mtime : Int × Int
deriving DecidableEq

/-- What a location can hold. -/
inductive Node (N : Type) where
  | dir
  | file (data : List UInt8) (attr : Attr)
  | link (target : List (Hop N))
  | other
deriving DecidableEq

/-- What a location holds that is no directory. -/
inductive Content (N : Type) where
  | file (data : List UInt8)
  | link (target : List (Hop N))
  | other
deriving DecidableEq

/-- The content of a node. -/
def Node.content {N : Type} : Node N → Option (Content N)
  | .dir => none
  | .file data _ => some (.file data)
  | .link target => some (.link target)
  | .other => some .other

variable {N : Type} [Ord N] [Std.TransOrd N]

section
variable {N : Type} [Ord N] [Std.TransOrd N]

/-- A tree, by location. -/
structure FileTree (N : Type) [Ord N] [Std.TransOrd N] where
  nodes : Std.ExtTreeMap (List N) (Node N) compare
  root : nodes[([] : List N)]? = none
  /-- What is not at the root is in a directory. -/
  parent : ∀ (l : List N) (n : N), nodes[l ++ [n]]? ≠ none → l = [] ∨ nodes[l]? = some .dir

namespace FileTree

variable {t t' : FileTree N} {l : List N}

/-- The content at a location. -/
def content (t : FileTree N) (l : List N) : Option (Content N) := t.nodes[l]?.bind Node.content

/-- No name before the last is a link. -/
def Real (t : FileTree N) (l : List N) : Prop :=
  ∀ d, d <+: l → d ≠ l → ∀ target, t.content d ≠ some (.link target)

/-- No name is a link, the last one neither. -/
def Plain (t : FileTree N) (l : List N) : Prop :=
  ∀ d, d <+: l → ∀ target, t.content d ≠ some (.link target)

/-- A link is content. -/
theorem content_eq_link_iff {target : List (Hop N)} :
    t.content l = some (.link target) ↔ t.nodes[l]? = some (.link target) := by
  unfold content
  cases h : t.nodes[l]? with
  | none => simp
  | some node => cases node <;> simp [Node.content]

/-- A directory has no content. -/
theorem content_of_dir (h : t.nodes[l]? = some .dir) : t.content l = none := by
  simp [content, h, Node.content]

/-- Nor has a free place. -/
theorem content_of_none (h : t.nodes[l]? = none) : t.content l = none := by
  simp [content, h]

/-- The root has no content. -/
theorem content_root (t : FileTree N) : t.content [] = none := content_of_none t.root

/-- A plain path is real. -/
theorem Plain.real (h : t.Plain l) : t.Real l := fun d hd _ => h d hd

/-- A real path is plain when no link is at its end. -/
theorem Real.plain (h : t.Real l) (hno : ∀ target, t.content l ≠ some (.link target)) :
    t.Plain l := by
  intro d hd target hl
  by_cases hne : d = l
  · exact hno target (hne ▸ hl)
  · exact h d hd hne target hl

/-- A real path stays real while no link appears. -/
theorem Real.mono (h : t.Real l)
    (hlinks : ∀ x target, t'.content x = some (.link target) → t.content x = some (.link target)) :
    t'.Real l := fun d hd hne target hl => h d hd hne target (hlinks d target hl)

/-- So does a plain one. -/
theorem Plain.mono (h : t.Plain l)
    (hlinks : ∀ x target, t'.content x = some (.link target) → t.content x = some (.link target)) :
    t'.Plain l := fun d hd target hl => h d hd target (hlinks d target hl)

/-- What is at a location is below directories. -/
theorem isDir_of_prefix (h : t.nodes[l]? ≠ none) {d : List N} (hd : d <+: l) (hne : d ≠ l) :
    d = [] ∨ t.nodes[d]? = some .dir := by
  induction l using List.reverseRecOn with
  | nil => exact .inl (List.prefix_nil.mp hd)
  | append_singleton l n ih =>
    have hp := t.parent l n h
    rcases List.prefix_concat_iff.mp hd with rfl | hd
    · exact absurd rfl hne
    · by_cases he : d = l
      · exact he ▸ hp
      · rcases hp with rfl | hp
        · exact .inl (List.prefix_nil.mp hd)
        · exact ih (by simp [hp]) hd he

end FileTree

end

namespace FileTree

section
set_option linter.unusedSectionVars false
variable {N : Type} [Ord N] [Std.TransOrd N] [Std.LawfulEqOrd N] [DecidableEq N]

/-- Is there a directory? -/
def isDir (t : FileTree N) (l : List N) : Bool := l = [] || t.nodes[l]? = some .dir

/-- Put a node in a directory, where no directory is. -/
def put (t : FileTree N) (l : List N) (node : Node N) : Option (FileTree N) :=
  if h : l ≠ [] ∧ t.isDir l.dropLast = true ∧ t.nodes[l]? ≠ some .dir then
    some {
      nodes := t.nodes.insert l node
      root := by rw [Std.ExtTreeMap.getElem?_insert, if_neg (by simpa using h.1), t.root]
      parent := fun l' n hn => by
        have hdir : l' ≠ l ∧ (l' = [] ∨ t.nodes[l']? = some .dir) := by
          rw [Std.ExtTreeMap.getElem?_insert] at hn
          split at hn
          · rename_i he
            obtain rfl : l = l' ++ [n] := Std.LawfulEqCmp.compare_eq_iff_eq.mp he
            exact ⟨by simp, by simpa [isDir] using h.2.1⟩
          · have hp := t.parent l' n hn
            refine ⟨fun he => ?_, hp⟩
            rcases hp with rfl | hp
            · exact h.1 he.symm
            · exact h.2.2 (he ▸ hp)
        refine hdir.2.imp_right fun hd => ?_
        rw [Std.ExtTreeMap.getElem?_insert, if_neg ?_, hd]
        exact fun he => hdir.1 (Std.LawfulEqCmp.compare_eq_iff_eq.mp he).symm }
  else none

/-- Remove a node that is no directory, or an empty one. -/
def remove (t : FileTree N) (l : List N) : Option (FileTree N) :=
  if h : t.nodes[l]? ≠ some .dir ∨ ∀ k ∈ t.nodes.keys, k ≠ [] → k.dropLast ≠ l then
    some {
      nodes := t.nodes.erase l
      root := by
        rw [Std.ExtTreeMap.getElem?_erase, t.root]
        simp
      parent := fun l' n hn => by
        have hn : t.nodes[l' ++ [n]]? ≠ none := fun he => hn (by
          rw [Std.ExtTreeMap.getElem?_erase, he]
          simp)
        have hp := t.parent l' n hn
        refine hp.imp_right fun hd => ?_
        rw [Std.ExtTreeMap.getElem?_erase, if_neg ?_, hd]
        intro he
        obtain rfl : l = l' := Std.LawfulEqCmp.compare_eq_iff_eq.mp he
        rcases h with h | h
        · exact h hd
        · refine h (l ++ [n]) ?_ (by simp) (by simp)
          exact Std.ExtTreeMap.mem_keys.mpr (Std.ExtTreeMap.mem_iff_isSome_getElem?.mpr
            (Option.isSome_iff_ne_none.mpr hn)) }
  else none

/-- Remove what is at a location and below it. -/
def removeBelow (t : FileTree N) (l : List N) (_ : l ≠ []) : FileTree N where
  nodes := t.nodes.filter fun k _ => !l.isPrefixOf k
  root := by
    rw [Std.ExtTreeMap.getElem?_filter', t.root]
    rfl
  parent := fun l' n hn => by
    rw [Std.ExtTreeMap.getElem?_filter'] at hn ⊢
    refine (t.parent l' n fun he => hn (by rw [he]; rfl)).imp_right fun hd => ?_
    rw [hd, Option.filter_some, if_pos]
    by_contra hpre
    refine hn ?_
    have hpre : l <+: l' ++ [n] :=
      List.IsPrefix.trans (List.isPrefixOf_iff_prefix.mp (by simpa using hpre)) ⟨[n], rfl⟩
    rw [Option.filter_eq_none_iff]
    intro node _
    simpa using hpre

/-! ## Walking a path -/

/-- Where a walk stops: at a location, out of the tree, or at a link with the hops still to go. -/
inductive Stop (N : Type) where
  | arrived (l : List N)
  | outside
  | link (dir : List N) (hops : List (Hop N))
  | error (e : Errno)

/-- Walk through directories up to the first link. -/
def hops (t : FileTree N) (follow : Bool) : List N → List (Hop N) → Stop N
  | cur, [] => .arrived cur
  | _, .root :: _ => .outside
  | cur, .up :: rest => if cur = [] then .outside else t.hops follow cur.dropLast rest
  | cur, .down n :: rest =>
    match t.nodes[cur ++ [n]]? with
    | some .dir => t.hops follow (cur ++ [n]) rest
    | some (.link target) =>
      if rest = [] && !follow then .arrived (cur ++ [n]) else .link cur (target ++ rest)
    | some _ => if rest = [] then .arrived (cur ++ [n]) else .error .notADirectory
    | none => if rest = [] then .arrived (cur ++ [n]) else .error .notFound

/-- Walk and follow links, at most `fuel` of them; `none` is out of the tree. -/
def resolve (t : FileTree N) (follow : Bool) :
    Nat → List N → List (Hop N) → Except Errno (Option (List N))
  | 0, _, _ => .error .tooManyLinks
  | fuel + 1, cur, hs =>
    match t.hops follow cur hs with
    | .arrived l => .ok (some l)
    | .outside => .ok none
    | .link dir hs => t.resolve follow fuel dir hs
    | .error e => .error e

/-- The location a path leads to. A link at its last name is followed if `follow` says so. -/
def locate (t : FileTree N) (follow : Bool) (l : List N) : Except Errno (Option (List N)) :=
  t.resolve follow 41 [] (l.map .down)

/-! ## Calls -/

/-- Do something at the location a path leads to; out of the tree it changes nothing here. -/
def place (t : FileTree N) (follow : Bool) (l : List N)
    (f : List N → Except Errno Unit × FileTree N) : Except Errno Unit × FileTree N :=
  match t.locate follow l with
  | .error e => (.error e, t)
  | .ok none => (.ok (), t)
  | .ok (some l) => f l

/-- The outcome of a change that may be refused. -/
def outcome (t : FileTree N) (e : Errno) : Option (FileTree N) → Except Errno Unit × FileTree N
  | some t' => (.ok (), t')
  | none => (.error e, t)

/-- The node at a path, itself when it is a link (`symlink_metadata`). -/
def lstat (t : FileTree N) (l : List N) : Except Errno (Node N) :=
  match t.locate false l with
  | .error e => .error e
  | .ok none => .ok .other
  | .ok (some l) =>
    if l = [] then .ok .dir
    else match t.nodes[l]? with
      | some node => .ok node
      | none => .error .notFound

/-- Remove a node that is no directory (`remove_file`). -/
def unlink (t : FileTree N) (l : List N) : Except Errno Unit × FileTree N :=
  t.place false l fun l => match t.nodes[l]? with
    | none => (.error .notFound, t)
    | some .dir => (.error .isADirectory, t)
    | some _ => t.outcome .other (t.remove l)

/-- Remove an empty directory (`remove_dir`). -/
def rmdir (t : FileTree N) (l : List N) : Except Errno Unit × FileTree N :=
  t.place false l fun l => match t.nodes[l]? with
    | none => (.error .notFound, t)
    | some .dir => t.outcome .directoryNotEmpty (t.remove l)
    | some _ => (.error .notADirectory, t)

/-- Make one directory; one that is there already will do. -/
def mkdir (t : FileTree N) (l : List N) : Except Errno Unit × FileTree N :=
  t.place true l fun l =>
    if t.isDir l then (.ok (), t)
    else match t.nodes[l]? with
      | none => t.outcome .notFound (t.put l .dir)
      | some _ => (.error .alreadyExists, t)

/-- Make the directories of a path one after the other (`create_dir_all`). -/
def mkdirs (t : FileTree N) : List N → List N → Except Errno Unit × FileTree N
  | _, [] => (.ok (), t)
  | cur, n :: rest =>
    match t.mkdir (cur ++ [n]) with
    | (.ok _, t) => t.mkdirs (cur ++ [n]) rest
    | (.error e, t) => (.error e, t)

/-- Move a node that is no directory over what is at the other path (`rename`). -/
def rename (t : FileTree N) (src dst : List N) : Except Errno Unit × FileTree N :=
  t.place false src fun src => t.place false dst fun dst => match t.nodes[src]? with
    | none => (.error .notFound, t)
    | some .dir => (.error .other, t)
    | some node =>
      if src = dst then (.ok (), t)
      else if t.isDir dst then (.error .isADirectory, t)
      else t.outcome .notFound ((t.put dst node).bind (·.remove src))

/-- Open a regular file for writing, new or emptied, and write `data` to it; `attr` is what its
metadata becomes, given the old one. -/
def write (t : FileTree N) (l : List N) (data : List UInt8) (attr : Option Attr → Attr) :
    Except Errno Unit × FileTree N :=
  t.place true l fun l =>
    if t.isDir l then (.error .isADirectory, t)
    else match t.nodes[l]? with
      | none => t.outcome .notFound (t.put l (.file data (attr none)))
      | some (.file _ old) => t.outcome .other (t.put l (.file data (attr (some old))))
      | some _ => (.error .other, t)

/-- Change an open regular file. -/
def update (t : FileTree N) (l : List N) (f : List UInt8 → Attr → List UInt8 × Attr) :
    Except Errno Unit × FileTree N :=
  t.place true l fun l =>
    if t.isDir l then (.ok (), t)
    else match t.nodes[l]? with
      | none => (.error .notFound, t)
      | some (.file data attr) =>
        t.outcome .other (t.put l (.file (f data attr).1 (f data attr).2))
      | some _ => (.error .other, t)

/-- Open a path to read. -/
def read (t : FileTree N) (l : List N) : Except Errno (List UInt8 × Attr) :=
  match t.locate true l with
  | .error e => .error e
  | .ok none => .error .other
  | .ok (some l) =>
    if t.isDir l then .error .isADirectory
    else match t.nodes[l]? with
      | none => .error .notFound
      | some (.file data attr) => .ok (data, attr)
      | some _ => .error .other

/-- The names in a directory (`read_dir`). -/
def readDir (t : FileTree N) (l : List N) : Except Errno (List N) :=
  match t.locate true l with
  | .error e => .error e
  | .ok none => .ok []
  | .ok (some l) =>
    if t.isDir l then
      .ok ((t.nodes.keys.filter fun k => k.dropLast = l && k ≠ []).filterMap List.getLast?)
    else if t.nodes[l]? = none then .error .notFound else .error .notADirectory

/-! ## Paths without links -/

variable {t t' : FileTree N} {l x : List N} {follow : Bool}

/-- A walk that meets no link arrives where it is told to, if anywhere. -/
theorem hops_of_plain : ∀ (rest cur : List N),
    (∀ d, d <+: rest → d ≠ [] → (d = rest → follow = true) → ∀ target,
      t.content (cur ++ d) ≠ some (.link target)) →
    t.hops follow cur (rest.map .down) = .arrived (cur ++ rest) ∨
      ∃ e, t.hops follow cur (rest.map .down) = .error e
  | [], cur, _ => .inl (by simp [hops])
  | n :: rest, cur, h => by
    have hstep : ∀ d, d <+: rest → d ≠ [] → (d = rest → follow = true) → ∀ target,
        t.content (cur ++ [n] ++ d) ≠ some (.link target) := fun d hd hne hf => by
      have := h (n :: d) (List.cons_prefix_cons.mpr ⟨rfl, hd⟩) (by simp) (by simpa using hf)
      simpa using this
    rw [List.map_cons, hops]
    cases hn : t.nodes[cur ++ [n]]? with
    | none =>
      cases rest with
      | nil => simp
      | cons m rest => simp
    | some node =>
      cases node with
      | dir => simpa using hops_of_plain rest (cur ++ [n]) hstep
      | link target =>
        cases rest with
        | nil =>
          cases follow with
          | false => simp
          | true =>
            refine absurd (content_eq_link_iff.mpr hn) ?_
            exact h [n] (List.prefix_refl _) (by simp) (fun _ => rfl) target
        | cons m rest =>
          refine absurd (content_eq_link_iff.mpr hn) ?_
          exact h [n] (List.cons_prefix_cons.mpr ⟨rfl, List.nil_prefix⟩) (by simp) (by simp) target
      | file | other =>
        cases rest with
        | nil => simp
        | cons m rest => simp

/-- A walk that fails without a link on its way does so because nothing is at its end. -/
theorem hops_error : ∀ (rest cur : List N) {e : Errno}, (cur = [] ∨ t.nodes[cur]? = some .dir) →
    t.hops follow cur (rest.map .down) = .error e → t.nodes[cur ++ rest]? = none
  | [], cur, e, _, h => by simp [hops] at h
  | n :: rest, cur, e, hcur, h => by
    by_contra hne
    have hpre : cur ++ [n] <+: cur ++ n :: rest := by simp
    have hdir : rest ≠ [] → cur ++ [n] = [] ∨ t.nodes[cur ++ [n]]? = some .dir := fun hr =>
      isDir_of_prefix hne hpre fun he => by simp_all
    rw [List.map_cons, hops] at h
    cases rest with
    | nil =>
      cases hn : t.nodes[cur ++ [n]]? with
      | none => exact hne hn
      | some node =>
        cases node with
        | dir | file | other => simp [hn, hops] at h
        | link target =>
          simp only [hn, List.map_nil, Bool.and_eq_true] at h
          split at h <;> cases h
    | cons m rest =>
      have hd : t.nodes[cur ++ [n]]? = some .dir := by simpa using hdir (by simp)
      rw [hd] at h
      exact hne (by simpa using hops_error (m :: rest) (cur ++ [n]) (.inr hd) h)

/-- **A real path leads to itself**, when its last name is not followed, or there is nothing. -/
theorem Real.locate (h : t.Real l) : t.locate false l = .ok (some l) ∨
    ∃ e, t.locate false l = .error e ∧ t.nodes[l]? = none := by
  have : t.hops false [] (l.map .down) = .arrived ([] ++ l) ∨
      ∃ e, t.hops false [] (l.map .down) = .error e := hops_of_plain l [] fun d hd hne hf target hl => by
    rw [List.nil_append] at hl
    exact h d hd (fun he => by simp [he] at hf) target hl
  unfold FileTree.locate resolve
  rw [List.nil_append] at this
  rcases this with hs | ⟨e, hs⟩
  · simp [hs]
  · exact .inr ⟨e, by simp [hs], hops_error l [] (.inl rfl) hs⟩

/-- **A plain path leads to itself.** -/
theorem Plain.locate (h : t.Plain l) (follow : Bool) :
    t.locate follow l = .ok (some l) ∨ ∃ e, t.locate follow l = .error e := by
  have : t.hops follow [] (l.map .down) = .arrived ([] ++ l) ∨
      ∃ e, t.hops follow [] (l.map .down) = .error e := hops_of_plain l [] fun d hd _ _ target hl => by
    rw [List.nil_append] at hl
    exact h d hd target hl
  unfold FileTree.locate resolve
  rw [List.nil_append] at this
  rcases this with hs | ⟨e, hs⟩
  · simp [hs]
  · simp [hs]

/-- Where a real path leads. -/
theorem Real.eq_of_locate (h : t.Real l) (hx : t.locate false l = .ok (some x)) : x = l := by
  rcases h.locate with hl | ⟨e, hl, -⟩
  · rw [hl] at hx
    exact (Option.some.inj (Except.ok.inj hx)).symm
  · rw [hl] at hx
    cases hx

/-- Where a plain path leads. -/
theorem Plain.eq_of_locate (h : t.Plain l) (hx : t.locate follow l = .ok (some x)) : x = l := by
  rcases h.locate follow with hl | ⟨e, hl⟩
  · rw [hl] at hx
    exact (Option.some.inj (Except.ok.inj hx)).symm
  · rw [hl] at hx
    cases hx

/-! ## What the calls change -/

/-- The content after a node is put somewhere. -/
theorem content_put {node : Node N} (h : t.put l node = some t') (x : List N) :
    t'.content x = if l = x then node.content else t.content x := by
  unfold put at h
  split at h
  · cases h
    unfold content
    rw [Std.ExtTreeMap.getElem?_insert]
    by_cases hx : l = x
    · simp [hx]
    · simp [hx]
  · cases h

/-- The content after a node is removed. -/
theorem content_remove (h : t.remove l = some t') (x : List N) :
    t'.content x = if l = x then none else t.content x := by
  unfold remove at h
  split at h
  · cases h
    unfold content
    rw [Std.ExtTreeMap.getElem?_erase]
    by_cases hx : l = x
    · simp [hx]
    · simp [hx]
  · cases h

/-- What a change at a place may change. -/
theorem content_place {f : List N → Except Errno Unit × FileTree N} {P : Option (Content N) → Prop}
    (h : ∀ y, t.locate follow l = .ok (some y) →
      (f y).2.content x = t.content x ∨ y = x ∧ P ((f y).2.content x)) :
    (t.place follow l f).2.content x = t.content x ∨
      t.locate follow l = .ok (some x) ∧ P ((t.place follow l f).2.content x) := by
  unfold place
  split
  · exact .inl rfl
  · exact .inl rfl
  · rename_i y hy
    rcases h y hy with h | ⟨rfl, h⟩
    · exact .inl h
    · exact .inr ⟨hy, h⟩

/-- A change that is refused changes nothing. -/
theorem content_outcome {e : Errno} {o : Option (FileTree N)} {P : Option (Content N) → Prop}
    (h : ∀ t', o = some t' → t'.content x = t.content x ∨ P (t'.content x)) :
    (t.outcome e o).2.content x = t.content x ∨ P ((t.outcome e o).2.content x) := by
  cases o with
  | none => exact .inl rfl
  | some t' => exact h t' rfl

/-- `unlink` takes away the content at its place. -/
theorem content_unlink (t : FileTree N) (l x : List N) :
    (t.unlink l).2.content x = t.content x ∨
      t.locate false l = .ok (some x) ∧ (t.unlink l).2.content x = none := by
  refine content_place (P := (· = none)) fun y _ => ?_
  split
  · exact .inl rfl
  · exact .inl rfl
  · refine content_outcome (P := fun c => y = x ∧ c = none) fun t' ht => ?_
    rw [content_remove ht x]
    by_cases h : y = x
    · exact .inr ⟨h, if_pos h⟩
    · exact .inl (if_neg h)

/-- A removal that succeeds, or finds nothing, leaves nothing. -/
theorem content_unlink_self (h : t.Real l)
    (hr : (t.unlink l).1 = .ok () ∨ (t.unlink l).1 = .error .notFound) :
    (t.unlink l).2.content l = none := by
  revert hr
  unfold unlink place
  rcases h.locate with hl | ⟨e, hl, hn⟩
  · rw [hl]
    dsimp only
    split
    · rename_i hn
      exact fun _ => content_of_none hn
    · rintro (hr | hr) <;> cases hr
    · cases hrem : t.remove l with
      | none => rintro (hr | hr) <;> cases hr
      | some t' => exact fun _ => (content_remove hrem l).trans (if_pos rfl)
  · rw [hl]
    exact fun _ => content_of_none hn

/-- `rmdir` changes no content. -/
theorem content_rmdir (t : FileTree N) (l x : List N) : (t.rmdir l).2.content x = t.content x := by
  suffices h : (t.rmdir l).2.content x = t.content x ∨ t.locate false l = .ok (some x) ∧
      (t.rmdir l).2.content x = t.content x from h.elim id And.right
  refine content_place (P := (· = t.content x)) fun y _ => .inl ?_
  split
  · rfl
  · rename_i hdir
    cases hrem : t.remove y with
    | none => rfl
    | some t' =>
      refine (content_remove hrem x).trans ?_
      split
      · rename_i h
        exact (h ▸ content_of_dir hdir).symm
      · rfl
  · rfl

/-- `mkdir` changes no content. -/
theorem content_mkdir (t : FileTree N) (l x : List N) : (t.mkdir l).2.content x = t.content x := by
  suffices h : (t.mkdir l).2.content x = t.content x ∨ t.locate true l = .ok (some x) ∧
      (t.mkdir l).2.content x = t.content x from h.elim id And.right
  refine content_place (P := (· = t.content x)) fun y _ => .inl ?_
  split
  · rfl
  · split
    · rename_i hnone
      cases hput : t.put y .dir with
      | none => rfl
      | some t' =>
        refine (content_put hput x).trans ?_
        split
        · rename_i h
          exact (h ▸ content_of_none hnone).symm
        · rfl
    · rfl

/-- Nor does making many. -/
theorem content_mkdirs (x : List N) : ∀ (rest cur : List N) (t : FileTree N),
    (t.mkdirs cur rest).2.content x = t.content x
  | [], _, _ => rfl
  | n :: rest, cur, t => by
    have h := content_mkdir t (cur ++ [n]) x
    unfold mkdirs
    split
    · rename_i t' heq
      rw [content_mkdirs x rest (cur ++ [n]) t', ← h, heq]
    · rename_i t' heq
      rw [← h, heq]

/-- `rename` takes the content from its source and puts it at its destination. -/
theorem content_rename (t : FileTree N) (src dst x : List N) :
    (t.rename src dst).2.content x = t.content x ∨
      t.locate false src = .ok (some x) ∧ (t.rename src dst).2.content x = none ∨
      t.locate false dst = .ok (some x) ∧ ∃ s, t.locate false src = .ok (some s) ∧
        (t.rename src dst).2.content x = t.content s := by
  unfold rename place
  split
  · exact .inl rfl
  · exact .inl rfl
  rename_i s hs
  split
  · exact .inl rfl
  · exact .inl rfl
  rename_i d hd
  dsimp only
  split
  · exact .inl rfl
  · exact .inl rfl
  rename_i node _ hnode
  split
  · exact .inl rfl
  rename_i hne
  split
  · exact .inl rfl
  cases ho : (t.put d node).bind (·.remove s) with
  | none => exact .inl rfl
  | some t' =>
    obtain ⟨t₁, hput, hrem⟩ := Option.bind_eq_some_iff.mp ho
    have hc : t'.content x = if s = x then none else if d = x then node.content else t.content x := by
      rw [content_remove hrem x, content_put hput x]
    dsimp only [outcome]
    by_cases hsx : s = x
    · exact .inr (.inl ⟨hsx ▸ hs, by rw [hc, if_pos hsx]⟩)
    · by_cases hdx : d = x
      · refine .inr (.inr ⟨hdx ▸ hd, s, hs, ?_⟩)
        rw [hc, if_neg hsx, if_pos hdx]
        simp [content, hnode]
      · exact .inl (by rw [hc, if_neg hsx, if_neg hdx])

/-- A rename that succeeds has moved the content. -/
theorem content_rename_self (hs : t.Real l) {dst : List N} (hd : t.Real dst)
    (hr : (t.rename l dst).1 = .ok ()) :
    (t.rename l dst).2.content dst = t.content l := by
  revert hr
  unfold rename place
  rcases hs.locate with hl | ⟨e, hl, -⟩
  · rcases hd.locate with hd | ⟨e, hd, -⟩
    · rw [hl, hd]
      dsimp only
      split
      · nofun
      · nofun
      rename_i node _ hnode
      split
      · rename_i he
        exact fun _ => by rw [he]
      rename_i hne
      split
      · nofun
      cases ho : (t.put dst node).bind (·.remove l) with
      | none => nofun
      | some t' =>
        obtain ⟨t₁, hput, hrem⟩ := Option.bind_eq_some_iff.mp ho
        intro _
        refine (content_remove hrem dst).trans ?_
        rw [if_neg hne, content_put hput, if_pos rfl]
        simp [content, hnode]
    · rw [hl, hd]
      nofun
  · rw [hl]
    nofun

/-- `write` leaves a file with its data at its place. -/
theorem content_write (t : FileTree N) (l x : List N) (data : List UInt8)
    (attr : Option Attr → Attr) :
    (t.write l data attr).2.content x = t.content x ∨
      t.locate true l = .ok (some x) ∧
        (t.write l data attr).2.content x = some (.file data) := by
  refine content_place (P := (· = some (.file data))) fun y _ => ?_
  have hput : ∀ attr t', t.put y (.file data attr) = some t' →
      t'.content x = t.content x ∨ y = x ∧ t'.content x = some (.file data) := fun attr t' ht => by
    rw [content_put ht x]
    by_cases h : y = x
    · exact .inr ⟨h, if_pos h⟩
    · exact .inl (if_neg h)
  split
  · exact .inl rfl
  split
  · exact content_outcome (P := fun c => y = x ∧ c = some (.file data)) (hput _)
  · exact content_outcome (P := fun c => y = x ∧ c = some (.file data)) (hput _)
  · exact .inl rfl

/-- A write that succeeds has written its data. -/
theorem content_write_self (h : t.Plain l) {data : List UInt8} {attr : Option Attr → Attr}
    (hr : (t.write l data attr).1 = .ok ()) :
    (t.write l data attr).2.content l = some (.file data) := by
  revert hr
  have hput : ∀ e attr, (t.outcome e (t.put l (.file data attr))).1 = .ok () →
      (t.outcome e (t.put l (.file data attr))).2.content l = some (.file data) := by
    intro e attr
    cases ho : t.put l (.file data attr) with
    | none => nofun
    | some t' => exact fun _ => (content_put ho l).trans (if_pos rfl)
  unfold write place
  rcases h.locate true with hl | ⟨e, hl⟩
  · rw [hl]
    dsimp only
    split
    · nofun
    split
    · exact hput _ _
    · exact hput _ _
    · nofun
  · rw [hl]
    nofun

/-- `update` changes the data of the file at its place. -/
theorem content_update (t : FileTree N) (l x : List N)
    (f : List UInt8 → Attr → List UInt8 × Attr) :
    (t.update l f).2.content x = t.content x ∨
      t.locate true l = .ok (some x) ∧ ∃ data attr, t.content x = some (.file data) ∧
        (t.update l f).2.content x = some (.file (f data attr).1) := by
  refine content_place (P := fun c => ∃ data attr, t.content x = some (.file data) ∧
    c = some (.file (f data attr).1)) fun y _ => ?_
  split
  · exact .inl rfl
  split
  · exact .inl rfl
  · rename_i data attr hnode
    refine content_outcome (P := fun c => y = x ∧ ∃ data attr, t.content x = some (.file data) ∧
      c = some (.file (f data attr).1)) fun t' ht => ?_
    rw [content_put ht x]
    by_cases h : y = x
    · refine .inr ⟨h, data, attr, ?_, if_pos h⟩
      simp [← h, content, hnode, Node.content]
    · exact .inl (if_neg h)
  · exact .inl rfl

/-- An update that succeeds on a file has changed its data. -/
theorem content_update_self (h : t.Plain l) {f : List UInt8 → Attr → List UInt8 × Attr}
    {data : List UInt8} (hf : ∀ attr attr', (f data attr).1 = (f data attr').1)
    (hc : t.content l = some (.file data)) (hr : (t.update l f).1 = .ok ()) (attr : Attr) :
    (t.update l f).2.content l = some (.file (f data attr).1) := by
  revert hr
  obtain ⟨attr', hnode⟩ : ∃ attr', t.nodes[l]? = some (.file data attr') := by
    unfold content at hc
    cases hn : t.nodes[l]? with
    | none => simp [hn] at hc
    | some node => cases node <;> simp_all [Node.content]
  have hdir : t.isDir l = false := by
    have hl : l ≠ [] := fun hl => by
      rw [hl, t.root] at hnode
      cases hnode
    simp [isDir, hl, hnode]
  unfold update place
  rcases h.locate true with hl | ⟨e, hl⟩
  · rw [hl]
    simp only [hdir, Bool.false_eq_true, if_false, hnode]
    cases ho : t.put l (.file (f data attr').1 (f data attr').2) with
    | none => nofun
    | some t' =>
      intro _
      refine (content_put ho l).trans ?_
      rw [if_pos rfl, Node.content, hf attr' attr]
  · rw [hl]
    nofun

end

end FileTree

end Pear.Lib
