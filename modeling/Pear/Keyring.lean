import Pear.Lib.Maps

/-!
# Keyrings

The workspace key ring of an end-to-end encrypted workspace (`e2e.rs`): a key for each generation
and never none. Writes are sealed under the newest generation, reads try them all, newest first. A
rotation mints the generation after the newest one, and a union takes the other ring's key wherever
that ring has one. The keys are a type of their own: a sealed blob opens under its own key alone.
-/

namespace Pear

/-- A key ring (`Keyring`). -/
@[ext] structure Keyring (K : Type) where
  keys : Std.ExtTreeMap Nat K compare
  nonempty : keys ≠ ∅

namespace Keyring

variable {K : Type}

/-- `Keyring::from_legacy` -/
def fromLegacy (key : K) : Keyring K where
  keys := (∅ : Std.ExtTreeMap Nat K compare).insert 1 key
  nonempty := Std.ExtTreeMap.insert_ne_empty

theorem toList_ne_nil (r : Keyring K) : r.keys.toList ≠ [] := by
  intro hnil
  refine r.nonempty (Lib.map_ext fun g => ?_)
  rw [Std.ExtTreeMap.getElem?_empty, Option.eq_none_iff_forall_ne_some]
  intro k hk
  have := Std.ExtTreeMap.mem_toList_iff_getElem?_eq_some.mpr hk
  rw [hnil] at this
  cases this

/-- The newest generation and its key (`newest`). -/
def newest (r : Keyring K) : Nat × K := r.keys.toList.getLast r.toList_ne_nil

/-- The newest generation. -/
def newestGen (r : Keyring K) : Nat := r.newest.1

/-- The generation a rotation mints: a `u32`, which wraps around. -/
def nextGen (r : Keyring K) : Nat := (r.newestGen + 1) % 2 ^ 32

/-- `rotate`, with the random key it draws. -/
def rotate (r : Keyring K) (key : K) : Keyring K where
  keys := r.keys.insert r.nextGen key
  nonempty := Std.ExtTreeMap.insert_ne_empty

/-- One generation of `union_from`: the keys so far, and the generations that were adopted. -/
def unionStep [DecidableEq K] (acc : Std.ExtTreeMap Nat K compare × List Nat) (g : Nat) (key : K) :
    Std.ExtTreeMap Nat K compare × List Nat :=
  if acc.1[g]? = some key then acc else (acc.1.insert g key, acc.2 ++ [g])

/-- The loop of `union_from`. -/
def unionLoop [DecidableEq K] (other : List (Nat × K))
    (acc : Std.ExtTreeMap Nat K compare × List Nat) : Std.ExtTreeMap Nat K compare × List Nat :=
  other.foldl (fun acc e => unionStep acc e.1 e.2) acc

/-- `decrypt`: the first key, newest first, under which an attempt succeeds. -/
def decrypt {α : Type} (r : Keyring K) (attempt : K → Option α) : Option α :=
  (r.keys.toList.reverse.map (·.2)).findSome? attempt

/-- What `keyring_from_json` accepts: generations start at 1. -/
def Readable (r : Keyring K) : Prop := 0 ∉ r.keys

instance (r : Keyring K) : Decidable r.Readable := inferInstanceAs (Decidable (0 ∉ r.keys))

section
variable {r : Keyring K} {key : K} {g : Nat}

/-- Rings with the same lookups are equal. -/
theorem ext_keys {r₁ r₂ : Keyring K} (h : ∀ g : Nat, r₁.keys[g]? = r₂.keys[g]?) : r₁ = r₂ :=
  Keyring.ext (Lib.map_ext h)

/-- The newest generation has its key. -/
theorem newest_key (r : Keyring K) : r.keys[r.newestGen]? = some r.newest.2 :=
  Std.ExtTreeMap.mem_toList_iff_getElem?_eq_some.mp (List.getLast_mem r.toList_ne_nil)

/-- A generation of a ring. -/
theorem mem_keys_iff : g ∈ r.keys ↔ ∃ k, r.keys[g]? = some k := by
  rw [Std.ExtTreeMap.mem_iff_isSome_getElem?, Option.isSome_iff_exists]

theorem newestGen_mem (r : Keyring K) : r.newestGen ∈ r.keys :=
  mem_keys_iff.mpr ⟨_, r.newest_key⟩

theorem newestGen_eq_maxKey (r : Keyring K) : r.newestGen = r.keys.maxKey r.nonempty := by
  rw [Std.ExtTreeMap.maxKey_eq_getLast_keys]
  simp only [← Std.ExtTreeMap.map_fst_toList_eq_keys, List.getLast_map]
  rfl

/-- No generation is above the newest. -/
theorem le_newestGen (h : g ∈ r.keys) : g ≤ r.newestGen := by
  rw [newestGen_eq_maxKey]
  exact Nat.isLE_compare.mp (Std.ExtTreeMap.le_maxKey_of_mem h)

/-- The newest generation is the one that no other exceeds. -/
theorem newestGen_eq (hg : g ∈ r.keys) (hmax : ∀ g' ∈ r.keys, g' ≤ g) : r.newestGen = g :=
  Nat.le_antisymm (hmax _ r.newestGen_mem) (le_newestGen hg)

/-- The keys after a rotation. -/
theorem rotate_keys (g : Nat) :
    (r.rotate key).keys[g]? = if r.nextGen = g then some key else r.keys[g]? :=
  Lib.getElem?_insert_eq _ _ _ _

theorem mem_fromLegacy : g ∈ (fromLegacy key).keys ↔ g = 1 := by
  rw [fromLegacy, Std.ExtTreeMap.mem_insert, Std.LawfulEqCmp.compare_eq_iff_eq]
  simp [eq_comm]

theorem mem_rotate : g ∈ (r.rotate key).keys ↔ g = r.nextGen ∨ g ∈ r.keys := by
  rw [rotate, Std.ExtTreeMap.mem_insert, Std.LawfulEqCmp.compare_eq_iff_eq, eq_comm]

/-- Below the last number, the generation that is minted is the one after the newest. -/
theorem nextGen_eq (h : r.newestGen + 1 < 2 ^ 32) : r.nextGen = r.newestGen + 1 :=
  Nat.mod_eq_of_lt h

/-- A rotation's generation is the newest one, unless the number wraps around. -/
theorem newestGen_rotate (h : r.newestGen + 1 < 2 ^ 32) :
    (r.rotate key).newestGen = r.newestGen + 1 := by
  refine newestGen_eq (mem_rotate.mpr (.inl (nextGen_eq h).symm)) fun g' hg' => ?_
  rcases mem_rotate.mp hg' with rfl | hg'
  · rw [nextGen_eq h]
  · exact (le_newestGen hg').trans (Nat.le_succ _)

end

/-! ## Unions -/

section
variable [DecidableEq K] {r other : Keyring K}

/-- What a union's loop leaves: the other ring's key where it has one, and the generations where the
two differed. -/
theorem unionLoop_spec : ∀ (others : List (Nat × K))
    (acc : Std.ExtTreeMap Nat K compare × List Nat), (others.map (·.1)).Nodup →
    (∀ g : Nat, (unionLoop others acc).1[g]? =
      ((others.find? (·.1 = g)).map (·.2)).or acc.1[g]?) ∧
    ((unionLoop others acc).2 = [] ↔ acc.2 = [] ∧ ∀ e ∈ others, acc.1[e.1]? = some e.2)
  | [], acc, _ => ⟨fun g => by simp [unionLoop], by simp [unionLoop]⟩
  | (g₀, k₀) :: others, acc, hnodup => by
    obtain ⟨hnot, hnodup⟩ := List.nodup_cons.mp hnodup
    obtain ⟨hkeys, hnil⟩ := unionLoop_spec others (unionStep acc g₀ k₀) hnodup
    have hstep : ∀ g : Nat, (unionStep acc g₀ k₀).1[g]? =
        if g₀ = g then some k₀ else acc.1[g]? := by
      intro g
      unfold unionStep
      split
      · rename_i hsame
        split
        · rename_i hg
          rw [← hg, hsame]
        · rfl
      · exact Lib.getElem?_insert_eq _ _ _ _
    have hother : ∀ g : Nat, g = g₀ → (others.find? fun e => decide (e.1 = g)) = none := by
      rintro g rfl
      rw [List.find?_eq_none]
      intro e he hg
      exact hnot (List.mem_map.mpr ⟨e, he, of_decide_eq_true hg⟩)
    have hlist : (unionStep acc g₀ k₀).2 = [] ↔ acc.2 = [] ∧ acc.1[g₀]? = some k₀ := by
      unfold unionStep
      split
      · rename_i hsame
        exact ⟨fun h => ⟨h, hsame⟩, And.left⟩
      · rename_i hdiff
        exact ⟨fun h => by simp at h, fun h => absurd h.2 hdiff⟩
    refine ⟨fun g => ?_, ?_⟩
    · show (unionLoop others (unionStep acc g₀ k₀)).1[g]? = _
      rw [hkeys, hstep]
      by_cases hg : g₀ = g
      · rw [hother g hg.symm]
        simp [hg]
      · simp [hg]
    · show (unionLoop others (unionStep acc g₀ k₀)).2 = [] ↔ _
      rw [hnil, hlist, List.forall_mem_cons]
      constructor
      · rintro ⟨⟨hacc, hsame⟩, hrest⟩
        refine ⟨hacc, hsame, fun e he => ?_⟩
        have hne : g₀ ≠ e.1 := fun h => hnot (List.mem_map.mpr ⟨e, he, h.symm⟩)
        have := hrest e he
        rwa [hstep, if_neg hne] at this
      · rintro ⟨hacc, hsame, hrest⟩
        refine ⟨⟨hacc, hsame⟩, fun e he => ?_⟩
        have hne : g₀ ≠ e.1 := fun h => hnot (List.mem_map.mpr ⟨e, he, h.symm⟩)
        rw [hstep, if_neg hne]
        exact hrest e he

/-- A union has the keys of both rings. -/
theorem unionLoop_keys (r other : Keyring K) (g : Nat) :
    (unionLoop other.keys.toList (r.keys, [])).1[g]? = (other.keys[g]?).or r.keys[g]? := by
  rw [(unionLoop_spec _ _ (Lib.nodup_toList other.keys)).1, Lib.find?_toList]

theorem unionLoop_ne_empty (r other : Keyring K) :
    (unionLoop other.keys.toList (r.keys, [])).1 ≠ ∅ := by
  intro hempty
  have hkeys := unionLoop_keys r other r.newestGen
  rw [hempty, newest_key, Std.ExtTreeMap.getElem?_empty] at hkeys
  cases ho : other.keys[r.newestGen]? <;> rw [ho] at hkeys <;> cases hkeys

/-- `union_from`: the other ring's generations, which win a mismatch, and the generations this ring
gained or replaced. -/
def unionFrom (r other : Keyring K) : Keyring K × List Nat :=
  ({ keys := (unionLoop other.keys.toList (r.keys, [])).1
     nonempty := unionLoop_ne_empty r other },
    (unionLoop other.keys.toList (r.keys, [])).2)

/-- **The keys of a union**: the other ring's where it has one. -/
theorem unionFrom_keys (r other : Keyring K) (g : Nat) :
    (r.unionFrom other).1.keys[g]? = (other.keys[g]?).or r.keys[g]? := unionLoop_keys r other g

theorem mem_unionFrom {g : Nat} :
    g ∈ (r.unionFrom other).1.keys ↔ g ∈ other.keys ∨ g ∈ r.keys := by
  simp only [Std.ExtTreeMap.mem_iff_isSome_getElem?, unionFrom_keys, Option.isSome_or,
    Bool.or_eq_true]

/-- What a union's loop adopts: the generations where the other ring's key is not this one's. -/
theorem unionLoop_adopted : ∀ (others : List (Nat × K))
    (acc : Std.ExtTreeMap Nat K compare × List Nat), (others.map (·.1)).Nodup →
    (unionLoop others acc).2 =
      acc.2 ++ (others.filter fun e => acc.1[e.1]? ≠ some e.2).map (·.1)
  | [], acc, _ => by simp [unionLoop]
  | (g₀, k₀) :: others, acc, hnodup => by
    obtain ⟨hnot, hnodup⟩ := List.nodup_cons.mp hnodup
    have hrest : others.filter (fun e => (unionStep acc g₀ k₀).1[e.1]? ≠ some e.2) =
        others.filter fun e => acc.1[e.1]? ≠ some e.2 := by
      apply List.filter_congr
      intro e he
      have hne : g₀ ≠ e.1 := fun h => hnot (List.mem_map.mpr ⟨e, he, h.symm⟩)
      unfold unionStep
      split
      · rfl
      · rw [Lib.getElem?_insert_eq, if_neg hne]
    show (unionLoop others (unionStep acc g₀ k₀)).2 = _
    rw [unionLoop_adopted others (unionStep acc g₀ k₀) hnodup, hrest]
    unfold unionStep
    split
    · rename_i hsame
      simp [hsame]
    · rename_i hdiff
      simp [hdiff]

/-- **What a union adopts**: the generations that it gained or replaced. -/
theorem mem_adopted {g : Nat} :
    g ∈ (r.unionFrom other).2 ↔ other.keys[g]? ≠ none ∧ other.keys[g]? ≠ r.keys[g]? := by
  show g ∈ (unionLoop other.keys.toList (r.keys, [])).2 ↔ _
  rw [unionLoop_adopted _ _ (Lib.nodup_toList other.keys), List.nil_append, List.mem_map]
  constructor
  · rintro ⟨e, he, rfl⟩
    obtain ⟨he, hdiff⟩ := List.mem_filter.mp he
    rw [Std.ExtTreeMap.mem_toList_iff_getElem?_eq_some.mp he]
    exact ⟨nofun, fun h => of_decide_eq_true hdiff h.symm⟩
  · rintro ⟨hsome, hdiff⟩
    obtain ⟨k, hk⟩ := Option.ne_none_iff_exists'.mp hsome
    refine ⟨(g, k), List.mem_filter.mpr
      ⟨Std.ExtTreeMap.mem_toList_iff_getElem?_eq_some.mpr hk, ?_⟩, rfl⟩
    rw [hk] at hdiff
    exact decide_eq_true hdiff.symm

/-- The generations that a union adopts are in ascending order. -/
theorem adopted_sorted : (r.unionFrom other).2.Pairwise (· < ·) := by
  show (unionLoop other.keys.toList (r.keys, [])).2.Pairwise (· < ·)
  rw [unionLoop_adopted _ _ (Lib.nodup_toList other.keys), List.nil_append, List.pairwise_map]
  exact (other.keys.ordered_keys_toList.imp Nat.compare_eq_lt.mp).filter _

/-- A union that adopts nothing is the ring itself. -/
theorem unionFrom_nil (h : (r.unionFrom other).2 = []) : (r.unionFrom other).1 = r := by
  have hsame := ((unionLoop_spec _ _ (Lib.nodup_toList other.keys)).2.mp h).2
  refine ext_keys fun g => ?_
  rw [unionFrom_keys]
  cases ho : other.keys[g]? with
  | none => rfl
  | some k =>
    exact (hsame (g, k) (Std.ExtTreeMap.mem_toList_iff_getElem?_eq_some.mpr ho)).symm

/-- A union's newest generation is the newer one. -/
theorem newestGen_unionFrom :
    (r.unionFrom other).1.newestGen = max r.newestGen other.newestGen := by
  refine newestGen_eq ?_ fun g hg => ?_
  · rcases Nat.le_total r.newestGen other.newestGen with h | h
    · rw [Nat.max_eq_right h]
      exact mem_unionFrom.mpr (.inl other.newestGen_mem)
    · rw [Nat.max_eq_left h]
      exact mem_unionFrom.mpr (.inr r.newestGen_mem)
  · rcases mem_unionFrom.mp hg with hg | hg
    · exact (le_newestGen hg).trans (Nat.le_max_right _ _)
    · exact (le_newestGen hg).trans (Nat.le_max_left _ _)

end

/-! ## Reading -/

/-- **A ring decrypts what was sealed under one of its keys**: an attempt that succeeds under that
key alone finds it. -/
theorem decrypt_eq_some {α : Type} {r : Keyring K} {attempt : K → Option α} {g : Nat} {key : K}
    {a : α} (hg : r.keys[g]? = some key) (hkey : attempt key = some a)
    (hother : ∀ k, k ≠ key → attempt k = none) : r.decrypt attempt = some a := by
  have hmem : key ∈ r.keys.toList.reverse.map (·.2) :=
    List.mem_map.mpr ⟨(g, key), List.mem_reverse.mpr
      (Std.ExtTreeMap.mem_toList_iff_getElem?_eq_some.mpr hg), rfl⟩
  unfold decrypt
  generalize r.keys.toList.reverse.map (·.2) = ks at hmem
  induction ks with
  | nil => cases hmem
  | cons k ks ih =>
    rw [List.findSome?_cons]
    by_cases hk : k = key
    · rw [hk, hkey]
    · rw [hother k hk]
      exact ih ((List.mem_cons.mp hmem).resolve_left (Ne.symm hk))

end Keyring

end Pear
