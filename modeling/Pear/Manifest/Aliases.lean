import Pear.Manifest

/-!
# Keys that name one file

`validate` promises that no two keys of a manifest name one file: it refuses empty components, and a
key that is a directory prefix of another. A `.` component passes it (`components` drops one that is
not the first), so `a/./b` and `a/b` stand side by side. The keys of an accepted manifest name
distinct files, none of them a directory of another's, exactly when this holds after the `.`
components are dropped, for every key that has one (`aliasFree_iff`).
-/

namespace Pear

variable {p q : Text}

/-! ## Paths and their parts -/

/-- A path is its parts. -/
theorem eq_of_splitOn_eq (h : p.splitOn '/' = q.splitOn '/') : p = q := by
  calc p = ['/'].intercalate (p.splitOn '/') := (List.intercalate_splitOn '/').symm
    _ = q := by rw [h, List.intercalate_splitOn]

/-- No part has a separator. -/
theorem slash_not_mem_part : ∀ {p : Text}, ∀ c ∈ p.splitOn '/', '/' ∉ c
  | [], c, hc => by
    rw [List.splitOn_nil, List.mem_singleton] at hc
    rw [hc]
    exact List.not_mem_nil
  | x :: xs, c, hc => by
    have ih := slash_not_mem_part (p := xs)
    rw [List.splitOn_cons_eq_if_modifyHead] at hc
    split at hc
    · rcases List.mem_cons.mp hc with rfl | hc
      · exact List.not_mem_nil
      · exact ih c hc
    · rename_i hx
      obtain ⟨d, ds, hds⟩ := List.exists_cons_of_ne_nil (List.splitOn_ne_nil '/' xs)
      rw [hds, List.modifyHead_cons] at hc
      rw [hds] at ih
      rcases List.mem_cons.mp hc with rfl | hc
      · rintro (_ | ⟨_, hin⟩)
        · exact hx (beq_self_eq_true '/')
        · exact ih d (.head _) hin
      · exact ih c (List.mem_cons_of_mem _ hc)

/-- **Directory prefixes by parts**: a path's parts begin another's when it is that path or one of
its directory prefixes. -/
theorem splitOn_prefix_iff : p.splitOn '/' <+: q.splitOn '/' ↔ p = q ∨ p ∈ ancestors q := by
  constructor
  · rintro ⟨rest, hrest⟩
    by_cases hnil : rest = []
    · rw [hnil, List.append_nil] at hrest
      exact .inl (eq_of_splitOn_eq hrest)
    · have hparts : (['/'].intercalate rest).splitOn '/' = rest :=
        List.splitOn_intercalate '/' (fun c hc => slash_not_mem_part (p := q) c
          (hrest ▸ List.mem_append_right _ hc)) hnil
      refine .inr (mem_ancestors.mpr ⟨['/'].intercalate rest, eq_of_splitOn_eq ?_⟩)
      rw [List.splitOn_append_cons_self, hparts, hrest]
  · rintro (rfl | h)
    · exact List.prefix_rfl
    · obtain ⟨r, rfl⟩ := mem_ancestors.mp h
      rw [List.splitOn_append_cons_self]
      exact List.prefix_append _ _

/-! ## Paths without their dots -/

/-- A path has a `.` component. -/
def HasDot (p : Text) : Prop := ['.'] ∈ p.splitOn '/'

instance (p : Text) : Decidable (HasDot p) := inferInstanceAs (Decidable (_ ∈ _))

/-- A path without its `.` components. -/
def undot (p : Text) : Text := ['/'].intercalate ((p.splitOn '/').filter (· ≠ ['.']))

/-- A path that has none is left alone. -/
theorem undot_of_not_hasDot (h : ¬ HasDot p) : undot p = p := by
  have hall : (p.splitOn '/').filter (· ≠ ['.']) = p.splitOn '/' :=
    List.filter_eq_self.mpr fun c hc => decide_eq_true fun (hdot : c = ['.']) =>
      h (show ['.'] ∈ _ from hdot ▸ hc)
  rw [undot, hall, List.intercalate_splitOn]

/-- The place of a valid path is its parts but the dots. -/
theorem ValidPath.loc_eq (h : ValidPath p) : loc p = (p.splitOn '/').filter (· ≠ ['.']) := by
  rw [loc_eq_parts]
  exact List.filter_congr fun c hc => by simp [h.part c hc]

/-- **The place of a valid path is the parts of the path without its dots.** -/
theorem ValidPath.splitOn_undot (h : ValidPath p) : (undot p).splitOn '/' = loc p := by
  have hne : (p.splitOn '/').filter (· ≠ ['.']) ≠ [] := by
    obtain ⟨c, cs, hp⟩ := List.exists_cons_of_ne_nil (List.splitOn_ne_nil '/' p)
    have hc : c ≠ ['.'] := (h.first c (by rw [hp]; rfl)).1
    rw [hp, List.filter_cons_of_pos (by simpa using hc)]
    exact List.cons_ne_nil _ _
  rw [h.loc_eq, undot]
  exact List.splitOn_intercalate '/' (fun c hc =>
    slash_not_mem_part (p := p) c (List.mem_filter.mp hc).1) hne

/-- **A valid key's file is at or above another's** exactly when that is so of the keys without their
dots. -/
theorem ValidPath.loc_prefix_iff (hp : ValidPath p) (hq : ValidPath q) :
    loc p <+: loc q ↔ undot p = undot q ∨ undot p ∈ ancestors (undot q) := by
  rw [← hp.splitOn_undot, ← hq.splitOn_undot, splitOn_prefix_iff]

/-! ## Accepted manifests -/

/-- Distinct keys name distinct files, and no key's file is a directory above another key's. -/
def AliasFree (files : FileMap) : Prop :=
  ∀ p q : Text, files[p]? ≠ none → files[q]? ≠ none → p ≠ q →
    loc p ≠ loc q ∧ ¬ (loc p <+: loc q)

/-- Dropping the dots of a key does not make it another key, nor a directory prefix of one, nor the
other way round. -/
def DotsApart (files : FileMap) : Prop :=
  ∀ p q : Text, files[p]? ≠ none → files[q]? ≠ none → p ≠ q → HasDot p ∨ HasDot q →
    undot p ≠ undot q ∧ undot p ∉ ancestors (undot q)

/-- **The keys of an accepted manifest are free of aliases exactly when those with a dot are.** -/
theorem aliasFree_iff {m : Manifest} (h : validate m = .ok ()) :
    AliasFree m.files ↔ DotsApart m.files := by
  have hv := validate_eq_ok_iff.mp h
  have hiff : ∀ {p q : Text}, m.files[p]? ≠ none → m.files[q]? ≠ none →
      ((loc p ≠ loc q ∧ ¬ (loc p <+: loc q)) ↔
        undot p ≠ undot q ∧ undot p ∉ ancestors (undot q)) := by
    intro p q hp hq
    have hne : ¬ (loc p <+: loc q) → loc p ≠ loc q := fun hpre heq => hpre (heq ▸ List.prefix_rfl)
    rw [and_iff_right_of_imp hne, (hv.path p hp).loc_prefix_iff (hv.path q hq), not_or]
  constructor
  · exact fun halias p q hp hq hne _ => (hiff hp hq).mp (halias p q hp hq hne)
  · intro hdots p q hp hq hne
    refine (hiff hp hq).mpr ?_
    by_cases hdot : HasDot p ∨ HasDot q
    · exact hdots p q hp hq hne hdot
    · -- Without dots, the raw keys are what `validate` compared.
      obtain ⟨hdp, hdq⟩ := not_or.mp hdot
      rw [undot_of_not_hasDot hdp, undot_of_not_hasDot hdq]
      exact ⟨hne, fun hin => hp (hv.noDir q hq p hin)⟩

/-- A manifest of empty files. -/
def emptyFilesAt (keys : List Text) : Manifest :=
  { Manifest.new "ws".toList with
    files := .ofList (keys.map fun p => (p, ⟨0, 0o644, 0, 0, []⟩)) compare }

/-- Two ordinary keys. -/
theorem aliasFree_iff_plain :
    let m := emptyFilesAt ["a/b".toList, "a/c".toList]
    AliasFree m.files ↔ DotsApart m.files :=
  aliasFree_iff (by decide +kernel)

/-- **A key with an inner dot passes `validate` beside the key it aliases.** -/
theorem validate_accepts_alias :
    let m := emptyFilesAt ["a/./b".toList, "a/b".toList]
    validate m = .ok () ∧ ¬ AliasFree m.files := by
  refine ⟨by decide +kernel, fun halias => ?_⟩
  have hp : (emptyFilesAt ["a/./b".toList, "a/b".toList]).files["a/./b".toList]? ≠ none := by
    decide +kernel
  have hq : (emptyFilesAt ["a/./b".toList, "a/b".toList]).files["a/b".toList]? ≠ none := by
    decide +kernel
  exact (halias _ _ hp hq (by decide)).1 (loc_dot_alias ['a'] ['b'])

end Pear
