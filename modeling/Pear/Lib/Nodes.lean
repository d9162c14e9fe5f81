import Pear.Lib.FileTree

/-!
# What the calls of a file tree do to its nodes

A call changes the node where its path leads to and no other (`nodes_unlink`, `nodes_rename`, …), and
a call that succeeds at a path without links has done what it is for, metadata included
(`nodes_rename_self`, `nodes_update_self`, …). `leaf` is the node at a location that is no directory;
making and removing directories keeps every leaf.
-/

namespace Pear.Lib

namespace FileTree

section
set_option linter.unusedSectionVars false
variable {N : Type} [Ord N] [Std.TransOrd N] [Std.LawfulEqOrd N] [DecidableEq N]

/-- The node at a location, if it is no directory. -/
def leaf (t : FileTree N) (l : List N) : Option (Node N) := t.nodes[l]?.filter (· ≠ .dir)

variable {t t' : FileTree N} {l x : List N} {follow : Bool} {node : Node N}

theorem leaf_eq_some_iff : t.leaf l = some node ↔ t.nodes[l]? = some node ∧ node ≠ .dir := by
  simp [leaf, Option.filter_eq_some_iff]

/-- A location without a leaf is one without content. -/
theorem leaf_eq_none_iff : t.leaf l = none ↔ t.content l = none := by
  unfold leaf content
  cases t.nodes[l]? with
  | none => simp
  | some node => cases node <;> simp [Node.content, Option.filter]

/-- Equal nodes are equal leaves. -/
theorem leaf_congr (h : t'.nodes[x]? = t.nodes[x]?) : t'.leaf x = t.leaf x := by
  rw [leaf, h, leaf]

/-- Equal leaves are equal nodes, where there is a leaf. -/
theorem nodes_of_leaf (h : t'.leaf x = t.leaf x) (hne : t.leaf x ≠ none) :
    t'.nodes[x]? = t.nodes[x]? := by
  obtain ⟨node, hnode⟩ := Option.ne_none_iff_exists'.mp hne
  rw [(leaf_eq_some_iff.mp hnode).1, (leaf_eq_some_iff.mp (h.trans hnode)).1]

/-- A directory is no leaf. -/
theorem leaf_of_dir (h : t.nodes[l]? = some .dir) : t.leaf l = none :=
  leaf_eq_none_iff.mpr (content_of_dir h)

/-- Nor is a free place. -/
theorem leaf_of_none (h : t.nodes[l]? = none) : t.leaf l = none :=
  leaf_eq_none_iff.mpr (content_of_none h)

/-! ## Where nodes change -/

/-- The nodes after one is put somewhere. -/
theorem nodes_put (h : t.put l node = some t') (x : List N) :
    t'.nodes[x]? = if l = x then some node else t.nodes[x]? := by
  unfold put at h
  split at h
  · cases h
    rw [Std.ExtTreeMap.getElem?_insert]
    by_cases hx : l = x
    · simp [hx]
    · simp [hx]
  · cases h

/-- The nodes after one is removed. -/
theorem nodes_remove (h : t.remove l = some t') (x : List N) :
    t'.nodes[x]? = if l = x then none else t.nodes[x]? := by
  unfold remove at h
  split at h
  · cases h
    rw [Std.ExtTreeMap.getElem?_erase]
    by_cases hx : l = x
    · simp [hx]
    · simp [hx]
  · cases h

/-- A change at a place changes the node there. -/
theorem nodes_place {f : List N → Except Errno Unit × FileTree N}
    (h : ∀ y, y ≠ x → (f y).2.nodes[x]? = t.nodes[x]?) :
    (t.place follow l f).2.nodes[x]? = t.nodes[x]? ∨ t.locate follow l = .ok (some x) := by
  unfold place
  split
  · exact .inl rfl
  · exact .inl rfl
  · rename_i y hy
    by_cases hyx : y = x
    · exact .inr (hyx ▸ hy)
    · exact .inl (h y hyx)

/-- A change that is refused changes no node. -/
theorem nodes_outcome {e : Errno} {o : Option (FileTree N)}
    (h : ∀ t', o = some t' → t'.nodes[x]? = t.nodes[x]?) :
    (t.outcome e o).2.nodes[x]? = t.nodes[x]? := by
  cases o with
  | none => rfl
  | some t' => exact h t' rfl

theorem nodes_unlink (t : FileTree N) (l x : List N) :
    (t.unlink l).2.nodes[x]? = t.nodes[x]? ∨ t.locate false l = .ok (some x) := by
  refine nodes_place fun y hy => ?_
  split
  · rfl
  · rfl
  · exact nodes_outcome fun t' ht => by rw [nodes_remove ht, if_neg hy]

theorem nodes_rmdir (t : FileTree N) (l x : List N) :
    (t.rmdir l).2.nodes[x]? = t.nodes[x]? ∨ t.locate false l = .ok (some x) := by
  refine nodes_place fun y hy => ?_
  split
  · rfl
  · exact nodes_outcome fun t' ht => by rw [nodes_remove ht, if_neg hy]
  · rfl

theorem nodes_mkdir (t : FileTree N) (l x : List N) :
    (t.mkdir l).2.nodes[x]? = t.nodes[x]? ∨ t.locate true l = .ok (some x) := by
  refine nodes_place fun y hy => ?_
  split
  · rfl
  · split
    · exact nodes_outcome fun t' ht => by rw [nodes_put ht, if_neg hy]
    · rfl

theorem nodes_rename (t : FileTree N) (src dst x : List N) :
    (t.rename src dst).2.nodes[x]? = t.nodes[x]? ∨ t.locate false src = .ok (some x) ∨
      t.locate false dst = .ok (some x) := by
  unfold rename place
  split
  · exact .inl rfl
  · exact .inl rfl
  rename_i s hs
  split
  · exact .inl rfl
  · exact .inl rfl
  rename_i d hd
  by_cases hsx : s = x
  · exact .inr (.inl (hsx ▸ hs))
  by_cases hdx : d = x
  · exact .inr (.inr (hdx ▸ hd))
  refine .inl ?_
  dsimp only
  split
  · rfl
  · rfl
  split
  · rfl
  split
  · rfl
  refine nodes_outcome fun t' ht => ?_
  obtain ⟨t₁, hput, hrem⟩ := Option.bind_eq_some_iff.mp ht
  rw [nodes_remove hrem, if_neg hsx, nodes_put hput, if_neg hdx]

theorem nodes_write (t : FileTree N) (l x : List N) (data : List UInt8) (attr : Option Attr → Attr) :
    (t.write l data attr).2.nodes[x]? = t.nodes[x]? ∨ t.locate true l = .ok (some x) := by
  refine nodes_place fun y hy => ?_
  split
  · rfl
  split
  · exact nodes_outcome fun t' ht => by rw [nodes_put ht, if_neg hy]
  · exact nodes_outcome fun t' ht => by rw [nodes_put ht, if_neg hy]
  · rfl

theorem nodes_update (t : FileTree N) (l x : List N) (f : List UInt8 → Attr → List UInt8 × Attr) :
    (t.update l f).2.nodes[x]? = t.nodes[x]? ∨ t.locate true l = .ok (some x) := by
  refine nodes_place fun y hy => ?_
  split
  · rfl
  split
  · rfl
  · exact nodes_outcome fun t' ht => by rw [nodes_put ht, if_neg hy]
  · rfl

/-! ## Directories -/

/-- `rmdir` keeps the leaves. -/
theorem leaf_rmdir (t : FileTree N) (l x : List N) : (t.rmdir l).2.leaf x = t.leaf x := by
  unfold rmdir place
  split
  · rfl
  · rfl
  rename_i y _
  dsimp only
  split
  · rfl
  · rename_i hdir
    cases hrem : t.remove y with
    | none => rfl
    | some t' =>
      by_cases hyx : y = x
      · subst hyx
        rw [leaf_of_dir hdir]
        exact leaf_of_none (by simpa [outcome] using nodes_remove hrem y)
      · exact leaf_congr ((nodes_remove hrem x).trans (if_neg hyx))
  · rfl

/-- What is a directory stays one when a directory is made, and every other node that is there stays
as it is. -/
theorem nodes_mkdir_of_ne_none (t : FileTree N) (l : List N) (h : t.nodes[x]? ≠ none) :
    (t.mkdir l).2.nodes[x]? = t.nodes[x]? := by
  unfold mkdir place
  split
  · rfl
  · rfl
  rename_i y _
  dsimp only
  split
  · rfl
  split
  · rename_i hnone
    refine nodes_outcome fun t' ht => (nodes_put ht x).trans (if_neg ?_)
    rintro rfl
    exact h hnone
  · rfl

/-- `mkdir` keeps the leaves. -/
theorem leaf_mkdir (t : FileTree N) (l x : List N) : (t.mkdir l).2.leaf x = t.leaf x := by
  by_cases h : t.nodes[x]? = none
  · rw [leaf_of_none h, leaf_eq_none_iff, content_mkdir]
    exact content_of_none h
  · exact leaf_congr (nodes_mkdir_of_ne_none t l h)

/-- What every `mkdir` keeps is kept by making many. -/
theorem mkdirs_invariant {I : FileTree N → Prop} (h : ∀ t l, I t → I (t.mkdir l).2) :
    ∀ (rest cur : List N) (t : FileTree N), I t → I (t.mkdirs cur rest).2
  | [], _, _, hi => hi
  | n :: rest, cur, t, hi => by
    have hstep := h t (cur ++ [n]) hi
    unfold mkdirs
    split
    · rename_i t' heq
      rw [heq] at hstep
      exact mkdirs_invariant h rest (cur ++ [n]) t' hstep
    · rename_i t' heq
      rw [heq] at hstep
      exact hstep

theorem leaf_mkdirs (t : FileTree N) (l x : List N) : (t.mkdirs [] l).2.leaf x = t.leaf x :=
  mkdirs_invariant (I := fun t' => t'.leaf x = t.leaf x)
    (fun t' l h => (leaf_mkdir t' l x).trans h) l [] t rfl

/-- What is there is not changed by making directories. -/
theorem nodes_mkdirs_of_ne_none (rest cur : List N) (h : t.nodes[x]? ≠ none) :
    (t.mkdirs cur rest).2.nodes[x]? = t.nodes[x]? :=
  mkdirs_invariant (I := fun t' => t'.nodes[x]? = t.nodes[x]?)
    (fun t' l ht => (nodes_mkdir_of_ne_none t' l (ht ▸ h)).trans ht) rest cur t rfl

/-- A directory stays one while directories are made. -/
theorem isDir_mkdir (t : FileTree N) (l : List N) (h : t.isDir x = true) :
    (t.mkdir l).2.isDir x = true := by
  unfold isDir at h ⊢
  rcases Bool.or_eq_true_iff.mp h with hx | hx
  · simp [of_decide_eq_true hx]
  · have hdir := of_decide_eq_true hx
    rw [nodes_mkdir_of_ne_none t l (by simp [hdir]), hdir]
    simp

/-- A `mkdir` at a plain path that succeeds leaves a directory there. -/
theorem isDir_mkdir_self (h : t.Plain l) (hr : (t.mkdir l).1 = .ok ()) :
    (t.mkdir l).2.isDir l = true := by
  revert hr
  unfold mkdir place
  rcases h.locate true with hl | ⟨e, hl⟩
  · rw [hl]
    dsimp only
    split
    · rename_i hdir
      exact fun _ => hdir
    split
    · cases hput : t.put l .dir with
      | none =>
        intro hr
        cases hr
      | some t' =>
        intro _
        have hnode : t'.nodes[l]? = some .dir := (nodes_put hput l).trans (if_pos rfl)
        simp [outcome, isDir, hnode]
    · intro hr
      cases hr
  · rw [hl]
    intro hr
    cases hr

/-- A path stays plain when a directory is made. -/
theorem Plain.mkdir (h : t.Plain x) (l : List N) : (t.mkdir l).2.Plain x :=
  fun d hd target => content_mkdir t l d ▸ h d hd target

/-- Making the directories of a plain path makes those on the path that are missing. -/
theorem nodes_mkdirs : ∀ (rest cur : List N) (t : FileTree N), t.Plain (cur ++ rest) →
    (t.mkdirs cur rest).2.nodes[x]? = t.nodes[x]? ∨ ∃ d, d <+: rest ∧ d ≠ [] ∧ x = cur ++ d
  | [], _, _, _ => .inl rfl
  | n :: rest, cur, t, hplain => by
    have hcur : t.Plain (cur ++ [n]) := fun d hd => hplain d (hd.trans (by simp))
    have hlinks : (t.mkdir (cur ++ [n])).2.Plain (cur ++ [n] ++ rest) :=
      Plain.mkdir (by simpa using hplain) _
    have hmade : (t.mkdir (cur ++ [n])).2.nodes[x]? = t.nodes[x]? ∨
        ∃ d, d <+: n :: rest ∧ d ≠ [] ∧ x = cur ++ d :=
      (nodes_mkdir t (cur ++ [n]) x).imp_right fun hx =>
        ⟨[n], by simp, by simp, hcur.eq_of_locate hx⟩
    unfold mkdirs
    split
    · rename_i t' heq
      rw [heq] at hmade hlinks
      rcases nodes_mkdirs rest (cur ++ [n]) t' hlinks with hsame | ⟨d, hd, -, hx⟩
      · rwa [hsame]
      · exact .inr ⟨n :: d, List.cons_prefix_cons.mpr ⟨rfl, hd⟩, by simp, by simpa using hx⟩
    · rename_i t' heq
      rwa [heq] at hmade

/-- When the directories of a plain path were made, they are there. -/
theorem isDir_mkdirs : ∀ (rest cur : List N) (t : FileTree N), t.Plain (cur ++ rest) →
    t.isDir cur = true → (t.mkdirs cur rest).1 = .ok () →
    ∀ d, d <+: rest → (t.mkdirs cur rest).2.isDir (cur ++ d) = true
  | [], cur, t, _, hcur, _, d, hd => by
    rw [List.prefix_nil.mp hd, List.append_nil]
    exact hcur
  | n :: rest, cur, t, hplain, hcur, hr, d, hd => by
    have hstep : t.Plain (cur ++ [n]) := fun d hd => hplain d (hd.trans (by simp))
    cases d with
    | nil =>
      rw [List.append_nil]
      exact mkdirs_invariant (I := fun t => t.isDir cur = true) (fun t l h => isDir_mkdir t l h) _ _ _
        hcur
    | cons m d =>
      obtain ⟨rfl, hrest⟩ := List.cons_prefix_cons.mp hd
      have hlinks : (t.mkdir (cur ++ [m])).2.Plain (cur ++ [m] ++ rest) :=
        Plain.mkdir (by simpa using hplain) _
      have hself := isDir_mkdir_self hstep
      unfold mkdirs at hr ⊢
      split at hr
      · rename_i t' heq
        rw [heq] at hlinks hself
        simpa using isDir_mkdirs rest (cur ++ [m]) t' hlinks (hself rfl) hr d hrest
      · cases hr

/-! ## Calls that succeed -/

/-- A rename between real paths that succeeds has moved the node. -/
theorem nodes_rename_self (hs : t.Real l) {dst : List N} (hd : t.Real dst) (hne : l ≠ dst)
    (hr : (t.rename l dst).1 = .ok ()) :
    (t.rename l dst).2.nodes[dst]? = t.nodes[l]? ∧ (t.rename l dst).2.nodes[l]? = none := by
  revert hr
  unfold rename place
  rcases hs.locate with hl | ⟨e, hl, -⟩
  · rcases hd.locate with hd | ⟨e, hd, -⟩
    · rw [hl, hd]
      dsimp only
      split
      · intro hr
        cases hr
      · intro hr
        cases hr
      rename_i node _ hnode
      rw [if_neg hne]
      split
      · intro hr
        cases hr
      cases ho : (t.put dst node).bind (·.remove l) with
      | none =>
        intro hr
        cases hr
      | some t' =>
        obtain ⟨t₁, hput, hrem⟩ := Option.bind_eq_some_iff.mp ho
        intro _
        refine ⟨(nodes_remove hrem dst).trans ?_, (nodes_remove hrem l).trans (if_pos rfl)⟩
        rw [if_neg hne, nodes_put hput, if_pos rfl, hnode]
    · rw [hl, hd]
      intro hr
      cases hr
  · rw [hl]
    intro hr
    cases hr

/-- A write at a plain path that succeeds leaves the file. -/
theorem nodes_write_self (h : t.Plain l) {data : List UInt8} {attr : Option Attr → Attr}
    (hr : (t.write l data attr).1 = .ok ()) :
    ∃ old, (t.write l data attr).2.nodes[l]? = some (.file data (attr old)) := by
  revert hr
  have hput : ∀ e old, (t.outcome e (t.put l (.file data (attr old)))).1 = .ok () →
      (t.outcome e (t.put l (.file data (attr old)))).2.nodes[l]? = some (.file data (attr old)) := by
    intro e old
    cases ho : t.put l (.file data (attr old)) with
    | none =>
      intro hr
      cases hr
    | some t' => exact fun _ => (nodes_put ho l).trans (if_pos rfl)
  unfold write place
  rcases h.locate true with hl | ⟨e, hl⟩
  · rw [hl]
    dsimp only
    split
    · intro hr
      cases hr
    split
    · exact fun hr => ⟨_, hput _ _ hr⟩
    · exact fun hr => ⟨_, hput _ _ hr⟩
    · intro hr
      cases hr
  · rw [hl]
    intro hr
    cases hr

/-- An update of a file at a plain path that succeeds has changed it. -/
theorem nodes_update_self (h : t.Plain l) {f : List UInt8 → Attr → List UInt8 × Attr}
    {data : List UInt8} {attr : Attr} (hnode : t.nodes[l]? = some (.file data attr))
    (hr : (t.update l f).1 = .ok ()) :
    (t.update l f).2.nodes[l]? = some (.file (f data attr).1 (f data attr).2) := by
  revert hr
  have hdir : t.isDir l = false := by
    have hl : l ≠ [] := fun hl => by
      rw [hl, t.root] at hnode
      cases hnode
    simp [isDir, hl, hnode]
  unfold update place
  rcases h.locate true with hl | ⟨e, hl⟩
  · rw [hl]
    simp only [hdir, Bool.false_eq_true, if_false, hnode]
    cases ho : t.put l (.file (f data attr).1 (f data attr).2) with
    | none =>
      intro hr
      cases hr
    | some t' => exact fun _ => (nodes_put ho l).trans (if_pos rfl)
  · rw [hl]
    intro hr
    cases hr

/-- An update of a directory changes nothing. -/
theorem nodes_update_of_isDir (h : t.Plain l) (hdir : t.isDir l = true)
    (f : List UInt8 → Attr → List UInt8 × Attr) : (t.update l f).2 = t := by
  unfold update place
  rcases h.locate true with hl | ⟨e, hl⟩
  · simp [hl, hdir]
  · simp [hl]

/-- An update that changes neither data nor metadata changes no node. -/
theorem nodes_update_same (t : FileTree N) (l x : List N) :
    (t.update l Prod.mk).2.nodes[x]? = t.nodes[x]? := by
  unfold update place
  split
  · rfl
  · rfl
  dsimp only
  split
  · rfl
  split
  · rfl
  · rename_i y _ _ data attr hnode
    refine nodes_outcome fun t' ht => ?_
    rw [nodes_put ht x]
    split
    · rename_i hyx
      rw [← hyx, hnode]
    · rfl
  · rfl

/-- What is left when everything below a location is removed. -/
theorem nodes_removeBelow (t : FileTree N) (hl : l ≠ []) (x : List N) :
    (t.removeBelow l hl).nodes[x]? = if l <+: x then none else t.nodes[x]? := by
  rw [removeBelow, Std.ExtTreeMap.getElem?_filter']
  by_cases h : l <+: x
  · rw [if_pos h, Option.filter_eq_none_iff]
    intro node _
    simpa using h
  · rw [if_neg h]
    cases t.nodes[x]? with
    | none => rfl
    | some node =>
      refine Option.filter_eq_some_iff.mpr ⟨rfl, ?_⟩
      rw [Bool.not_eq_true', ← Bool.not_eq_true, List.isPrefixOf_iff_prefix]
      exact h

/-- Where a file is read there is something. -/
theorem exists_of_read {r : List UInt8 × Attr} (h : t.read l = .ok r) :
    ∃ x : List N, t.nodes[x]? ≠ none := by
  unfold read at h
  split at h
  · cases h
  · cases h
  split at h
  · cases h
  split at h
  · cases h
  · rename_i hnode
    exact ⟨_, by rw [hnode]; exact Option.some_ne_none _⟩
  · cases h

/-- Everything is below an entry of the root. -/
theorem exists_entry (h : t.nodes[l]? ≠ none) : ∃ n, [n] <+: l ∧ t.nodes[[n]]? ≠ none := by
  cases l with
  | nil => exact absurd t.root h
  | cons n l =>
    refine ⟨n, ⟨l, rfl⟩, ?_⟩
    by_cases hl : [n] = n :: l
    · rwa [hl]
    · rcases isDir_of_prefix h ⟨l, rfl⟩ hl with hnil | hdir
      · cases hnil
      · rw [hdir]
        exact Option.some_ne_none _

/-- A listing of the root has the names of its entries. -/
theorem readDir_root (t : FileTree N) : ∃ names, t.readDir [] = .ok names ∧
    ∀ n, n ∈ names ↔ t.nodes[[n]]? ≠ none := by
  have hkeys : ∀ k : List N, k ∈ t.nodes.keys ↔ t.nodes[k]? ≠ none := fun k => by
    rw [Std.ExtTreeMap.mem_keys, Std.ExtTreeMap.mem_iff_isSome_getElem?, Option.isSome_iff_ne_none]
  refine ⟨_, rfl, fun n => ?_⟩
  rw [List.mem_filterMap]
  constructor
  · rintro ⟨k, hk, hlast⟩
    obtain ⟨hmem, hlen⟩ := List.mem_filter.mp hk
    simp only [Bool.and_eq_true, decide_eq_true_eq] at hlen
    obtain ⟨hdrop, hne⟩ := hlen
    have hk : k = [n] := by
      rw [← List.dropLast_append_getLast hne, hdrop, List.nil_append, List.cons.injEq]
      rw [List.getLast?_eq_some_getLast hne] at hlast
      exact ⟨Option.some.inj hlast, rfl⟩
    rw [← hk]
    exact (hkeys k).mp hmem
  · intro hn
    exact ⟨[n], List.mem_filter.mpr ⟨(hkeys [n]).mpr hn, by simp⟩, rfl⟩

end

end FileTree

end Pear.Lib
