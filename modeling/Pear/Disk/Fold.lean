import Pear.Disk
import Pear.Manifest.Aliases

/-!
# The case-fold refusal

On a filesystem that folds case, `apply_commit` wants no two files of a manifest at one place and no
file where another needs a directory. It compares the folds of whole keys. That leaves out a key
whose fold is a directory prefix of another's (`A/x` beside `a`), and keys whose folds agree after a
`.` component is dropped. The keys that pass are free of collisions exactly when these two do not
occur (`foldFree_iff`).
-/

namespace Pear

/-- What is known of `to_lowercase`: it folds a path part by part, since no character folds to a
separator and a separator ends the context of a final sigma. -/
def FoldsParts (lower : Text → Text) : Prop :=
  ∀ p : Text, (lower p).splitOn '/' = (p.splitOn '/').map lower

/-- On a filesystem that identifies names with one fold, distinct keys name distinct files, and no
key's file is a directory above another key's. -/
def FoldFree (lower : Text → Text) (files : FileMap) : Prop :=
  ∀ p q : Text, files[p]? ≠ none → files[q]? ≠ none → p ≠ q →
    (loc p).map lower ≠ (loc q).map lower ∧ ¬ ((loc p).map lower <+: (loc q).map lower)

/-- The fold of a key, without its dots, is no directory prefix of another key's; and of two keys of
which one has a dot it is not the same. -/
structure FoldsApart (lower : Text → Text) (files : FileMap) : Prop where
  dirs : ∀ p q : Text, files[p]? ≠ none → files[q]? ≠ none → p ≠ q →
    lower (undot p) ∉ ancestors (lower (undot q))
  dots : ∀ p q : Text, files[p]? ≠ none → files[q]? ≠ none → p ≠ q → HasDot p ∨ HasDot q →
    lower (undot p) ≠ lower (undot q)

section
variable {lower : Text → Text} {p q : Text}

/-- The check finds no collision when every fold is new. -/
theorem collision_eq_none_iff : ∀ {rels : List Text} {folded : List (Text × Text)},
    collision lower folded rels = none ↔
      (∀ p ∈ rels, lower p ∉ folded.map (·.1)) ∧ (rels.map lower).Nodup
  | [], folded => by simp [collision]
  | p :: rels, folded => by
    have ih : collision lower ((lower p, p) :: folded) rels = none ↔ _ := collision_eq_none_iff
    have hlookup : folded.lookup (lower p) = none ↔ lower p ∉ folded.map (·.1) := by
      rw [List.lookup_eq_none_iff]
      constructor
      · intro h hin
        obtain ⟨other, hother, heq⟩ := List.mem_map.mp hin
        exact absurd heq.symm (by simpa using h other hother)
      · intro h other hother
        simpa using fun heq : lower p = other.1 => h (heq ▸ List.mem_map_of_mem hother)
    unfold collision
    rw [List.forall_mem_cons, ← hlookup, List.map_cons, List.nodup_cons]
    cases hlook : folded.lookup (lower p) with
    | some other => simp
    | none =>
      show collision lower ((lower p, p) :: folded) rels = none ↔ _
      rw [ih]
      constructor
      · rintro ⟨hnew, hnodup⟩
        refine ⟨⟨rfl, fun q hq hin => hnew q hq (List.mem_cons_of_mem _ hin)⟩, fun hin => ?_, hnodup⟩
        obtain ⟨q, hq, heq⟩ := List.mem_map.mp hin
        exact hnew q hq (heq ▸ List.mem_cons_self)
      · rintro ⟨⟨-, hnew⟩, hp, hnodup⟩
        refine ⟨fun q hq hin => ?_, hnodup⟩
        rcases List.mem_cons.mp hin with heq | hin
        · have heq : lower q = lower p := heq
          exact hp (heq ▸ List.mem_map_of_mem hq)
        · exact hnew q hq hin

theorem checkManifests_eq_done {old new : Manifest} (hold : validate old = .ok ())
    (hnew : validate new = .ok ()) (hfold : collision lower [] new.files.keys = none) :
    checkManifests lower old new = .done () := by
  rw [checkManifests, hold, hnew, hfold]
  rfl

/-- **What `apply_commit` lets through.** -/
theorem checkManifests_eq_done_iff {old new : Manifest} :
    checkManifests lower old new = .done () ↔ validate old = .ok () ∧ validate new = .ok () ∧
      ∀ p q : Text, new.files[p]? ≠ none → new.files[q]? ≠ none → lower p = lower q → p = q := by
  have hcollide : collision lower [] new.files.keys = none ↔
      ∀ p q : Text, new.files[p]? ≠ none → new.files[q]? ≠ none → lower p = lower q → p = q := by
    rw [collision_eq_none_iff, List.nodup_map_iff_inj_on (Lib.nodup_keys _)]
    simp only [Lib.mem_keys_iff, List.map_nil, List.not_mem_nil, not_false_eq_true, implies_true,
      true_and]
    exact ⟨fun h p q hp hq => h p hp q hq, fun h p hp q hq => h p q hp hq⟩
  rw [← hcollide]
  unfold checkManifests
  cases validate old with
  | error e => simp
  | ok =>
    cases validate new with
    | error e => simp
    | ok => cases collision lower [] new.files.keys <;> simp

/-- The folded place of a valid path is the parts of the fold of the path without its dots. -/
theorem ValidPath.map_loc (h : ValidPath p) (hlower : FoldsParts lower) :
    (loc p).map lower = (lower (undot p)).splitOn '/' := by
  rw [hlower, h.splitOn_undot]

/-- **The keys that pass the case-fold refusal are free of collisions** on a filesystem with that
fold exactly when no fold is a directory prefix of another's, and no dot hides an equal one. -/
theorem foldFree_iff (hlower : FoldsParts lower) {old new : Manifest}
    (h : checkManifests lower old new = .done ()) :
    FoldFree lower new.files ↔ FoldsApart lower new.files := by
  obtain ⟨-, hvalid, hfold⟩ := checkManifests_eq_done_iff.mp h
  have hv := validate_eq_ok_iff.mp hvalid
  have hiff : ∀ {p q : Text}, new.files[p]? ≠ none → new.files[q]? ≠ none →
      (((loc p).map lower ≠ (loc q).map lower ∧ ¬ ((loc p).map lower <+: (loc q).map lower)) ↔
        lower (undot p) ≠ lower (undot q) ∧ lower (undot p) ∉ ancestors (lower (undot q))) := by
    intro p q hp hq
    have hne : ¬ ((loc p).map lower <+: (loc q).map lower) →
        (loc p).map lower ≠ (loc q).map lower := fun hpre heq => hpre (heq ▸ List.prefix_rfl)
    rw [and_iff_right_of_imp hne, (hv.path p hp).map_loc hlower, (hv.path q hq).map_loc hlower,
      splitOn_prefix_iff, not_or]
  constructor
  · intro hfree
    exact ⟨fun p q hp hq hne => ((hiff hp hq).mp (hfree p q hp hq hne)).2,
      fun p q hp hq hne _ => ((hiff hp hq).mp (hfree p q hp hq hne)).1⟩
  · intro hapart p q hp hq hne
    refine (hiff hp hq).mpr ⟨?_, hapart.dirs p q hp hq hne⟩
    by_cases hdot : HasDot p ∨ HasDot q
    · exact hapart.dots p q hp hq hne hdot
    · -- Without dots, the folds of the raw keys are what the check compared.
      obtain ⟨hdp, hdq⟩ := not_or.mp hdot
      rw [undot_of_not_hasDot hdp, undot_of_not_hasDot hdq]
      exact fun heq => hne (hfold p q hp hq heq)

end

/-- `to_lowercase` on ASCII. -/
def asciiLower (s : Text) : Text := s.map Char.toLower

/-- No letter folds to a separator. -/
theorem toLower_eq_slash_iff {c : Char} : c.toLower = '/' ↔ c = '/' := by
  unfold Char.toLower
  split
  · rename_i hupper
    constructor
    · intro h
      have hval : c.val + ('a'.val - 'A'.val) = '/'.val := congrArg Char.val h
      have hsum : (c.val.toNat + 32) % 2 ^ 32 = 47 := congrArg UInt32.toNat hval
      have hlow : 65 ≤ c.val.toNat := hupper.1
      have hhigh : c.val.toNat ≤ 90 := hupper.2
      omega
    · rintro rfl
      exact absurd hupper.1 (by decide)
  · exact Iff.rfl

theorem asciiLower_foldsParts : FoldsParts asciiLower
  | [] => rfl
  | x :: xs => by
    have ih : (xs.map Char.toLower).splitOn '/' = (xs.splitOn '/').map asciiLower :=
      asciiLower_foldsParts xs
    rw [asciiLower, List.map_cons, List.splitOn_cons_eq_if_modifyHead,
      List.splitOn_cons_eq_if_modifyHead, ih]
    by_cases hx : x = '/'
    · rw [if_pos (by simp [hx]), if_pos (by simp [hx])]
      rfl
    · rw [if_neg (by simpa [toLower_eq_slash_iff] using hx), if_neg (by simpa using hx)]
      cases xs.splitOn '/' <;> rfl

/-- Two ordinary keys. -/
theorem foldFree_iff_plain :
    let new := emptyFilesAt ["A/x".toList, "b".toList]
    FoldFree asciiLower new.files ↔ FoldsApart asciiLower new.files :=
  have hcheck : checkManifests asciiLower (emptyFilesAt [])
      (emptyFilesAt ["A/x".toList, "b".toList]) = .done () :=
    checkManifests_eq_done (by decide +kernel) (by decide +kernel) (by decide +kernel)
  foldFree_iff asciiLower_foldsParts hcheck

/-- **A file and a directory that differ in case pass the refusal.** -/
theorem checkManifests_misses_directory :
    let new := emptyFilesAt ["A/x".toList, "a".toList]
    checkManifests asciiLower (emptyFilesAt []) new = .done () ∧ ¬ FoldFree asciiLower new.files := by
  refine ⟨checkManifests_eq_done (by decide +kernel) (by decide +kernel) (by decide +kernel),
    fun hfree => ?_⟩
  have hdir : (emptyFilesAt ["A/x".toList, "a".toList]).files["a".toList]? ≠ none := by
    decide +kernel
  have hfile : (emptyFilesAt ["A/x".toList, "a".toList]).files["A/x".toList]? ≠ none := by
    decide +kernel
  exact (hfree _ _ hdir hfile (by decide)).2 (by decide +kernel)

end Pear
