import Mathlib

/-!
# Finite maps by lookup

`Std.ExtTreeMap` over a lawful order, read through `m[k]?` alone: what insertion, erasure and the
list of keys mean for a lookup, with keys compared by equality.
-/

namespace Pear.Lib

variable {α β : Type} {cmp : α → α → Ordering} [Std.TransCmp cmp] [Std.LawfulEqCmp cmp]
  {m : Std.ExtTreeMap α β cmp} {k q : α} {v : β}

/-- Looking up after an insertion. -/
theorem getElem?_insert_eq [DecidableEq α] (m : Std.ExtTreeMap α β cmp) (k : α) (v : β) (q : α) :
    (m.insert k v)[q]? = if k = q then some v else m[q]? := by
  rw [Std.ExtTreeMap.getElem?_insert]
  simp only [Std.LawfulEqCmp.compare_eq_iff_eq]

/-- Looking up after an erasure. -/
theorem getElem?_erase_eq [DecidableEq α] (m : Std.ExtTreeMap α β cmp) (k q : α) :
    (m.erase k)[q]? = if k = q then none else m[q]? := by
  rw [Std.ExtTreeMap.getElem?_erase]
  simp only [Std.LawfulEqCmp.compare_eq_iff_eq]

/-- What is found after an insertion is the inserted value or was there. -/
theorem getElem?_insert_cases [DecidableEq α] {w : β} (h : (m.insert k v)[q]? = some w) :
    (q = k ∧ w = v) ∨ (q ≠ k ∧ m[q]? = some w) := by
  rw [getElem?_insert_eq] at h
  split at h
  · rename_i hkq
    exact .inl ⟨hkq.symm, (Option.some.inj h).symm⟩
  · rename_i hkq
    exact .inr ⟨Ne.symm hkq, h⟩

/-- What is found after an erasure was there. -/
theorem getElem?_of_erase [DecidableEq α] {w : β} (h : (m.erase k)[q]? = some w) :
    q ≠ k ∧ m[q]? = some w := by
  rw [getElem?_erase_eq] at h
  split at h
  · cases h
  · rename_i hkq
    exact ⟨Ne.symm hkq, h⟩

/-- A key of a map is what it has a value for. -/
theorem mem_keys_iff : q ∈ m.keys ↔ m[q]? ≠ none := by
  rw [Std.ExtTreeMap.mem_keys, Std.ExtTreeMap.mem_iff_isSome_getElem?, Option.isSome_iff_ne_none]

/-- A map's keys are pairwise different. -/
theorem nodup_keys (m : Std.ExtTreeMap α β cmp) : m.keys.Nodup := by
  refine List.Pairwise.imp (fun h => ?_) (Std.ExtTreeMap.distinct_keys (t := m))
  exact fun he => h (Std.LawfulEqCmp.compare_eq_iff_eq.mpr he)

theorem nodup_toList (m : Std.ExtTreeMap α β cmp) : (m.toList.map (·.1)).Nodup := by
  rw [Std.ExtTreeMap.map_fst_toList_eq_keys]
  exact nodup_keys m

/-- Looking a key up in the list of entries. -/
theorem find?_toList [DecidableEq α] (m : Std.ExtTreeMap α β cmp) (q : α) :
    (m.toList.find? (·.1 = q)).map (·.2) = m[q]? := by
  cases h : m[q]? with
  | none =>
    rw [Option.map_eq_none_iff, List.find?_eq_none]
    intro e he hq
    rw [← of_decide_eq_true hq, Std.ExtTreeMap.mem_toList_iff_getElem?_eq_some.mp he] at h
    cases h
  | some v =>
    have hmem := Std.ExtTreeMap.mem_toList_iff_getElem?_eq_some.mpr h
    cases hf : m.toList.find? (·.1 = q) with
    | none => exact absurd (decide_eq_true rfl) (List.find?_eq_none.mp hf _ hmem)
    | some e =>
      have hq : e.1 = q := by simpa using List.find?_some hf
      have he := Std.ExtTreeMap.mem_toList_iff_getElem?_eq_some.mp (List.mem_of_find?_eq_some hf)
      rw [hq, h] at he
      rw [Option.map_some, Option.some.inj he]

/-- A key of a union is a key of one of the maps. -/
theorem mem_keys_union {m₁ m₂ : Std.ExtTreeMap α β cmp} :
    q ∈ (m₁ ∪ m₂).keys ↔ m₁[q]? ≠ none ∨ m₂[q]? ≠ none := by
  rw [Std.ExtTreeMap.mem_keys, Std.ExtTreeMap.mem_union_iff]
  simp only [Std.ExtTreeMap.mem_iff_isSome_getElem?, Option.isSome_iff_ne_none]

omit [Std.LawfulEqCmp cmp] in
/-- A union has nothing where neither map has. -/
theorem union_eq_none_iff {m₁ m₂ : Std.ExtTreeMap α β cmp} :
    (m₁ ∪ m₂)[q]? = none ↔ m₁[q]? = none ∧ m₂[q]? = none := by
  rw [Std.ExtTreeMap.getElem?_union, Option.or_eq_none_iff]
  exact and_comm

/-- Maps with the same lookups are equal. -/
theorem map_ext {m₁ m₂ : Std.ExtTreeMap α β cmp} (h : ∀ k : α, m₁[k]? = m₂[k]?) : m₁ = m₂ :=
  Std.ExtTreeMap.ext_getElem? fun k => h k

/-- A map is the one of its entries. -/
theorem ofList_toList [DecidableEq α] (m : Std.ExtTreeMap α β cmp) :
    Std.ExtTreeMap.ofList m.toList cmp = m := by
  have hpair : m.toList.Pairwise fun a b => ¬ cmp a.1 b.1 = .eq :=
    m.ordered_keys_toList.imp fun h heq => by
      rw [heq] at h
      cases h
  refine map_ext fun k => ?_
  cases hk : m[k]? with
  | some v =>
    exact Std.ExtTreeMap.getElem?_ofList_of_mem Std.ReflCmp.compare_self hpair
      (Std.ExtTreeMap.mem_toList_iff_getElem?_eq_some.mpr hk)
  | none =>
    apply Std.ExtTreeMap.getElem?_ofList_of_contains_eq_false
    rw [Std.ExtTreeMap.map_fst_toList_eq_keys, List.contains_eq_mem, decide_eq_false_iff_not,
      mem_keys_iff, hk]
    exact fun h => h rfl

end Pear.Lib
