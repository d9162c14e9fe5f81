import Pear.Merge

/-!
# Conflict-copy names

What `NameSpace.claim` returns: a name no earlier claim and no input path took
(`claim_not_mem`), in the directory of the contested path (`ancestors_candidate`), and fit to be a
manifest key (`ValidPath.candidate`). The numbering terminates because candidates are pairwise
different (`candidate_injective`), so a finite set of names cannot hold all of them. The device name
and the stamp bring no separator into a name (`slash_not_mem_sanitizeDevice`,
`slash_not_mem_conflictStamp`).
-/

namespace Pear

/-! ## Splitting a path -/

section
variable {path name : Text}

/-- Directory and name put the path back together. -/
theorem splitDir_append (path : Text) : (splitDir path).1 ++ (splitDir path).2 = path := by
  unfold splitDir
  cases h : rsplit '/' path with
  | none => rfl
  | some ab =>
    obtain ⟨hp, -⟩ := rsplit_eq_some.mp h
    simp [hp]

/-- The name has no separator. -/
theorem slash_not_mem_splitDir (path : Text) : '/' ∉ (splitDir path).2 := by
  unfold splitDir
  cases h : rsplit '/' path with
  | none => exact rsplit_eq_none.mp h
  | some ab => exact (rsplit_eq_some.mp h).2

/-- The directory is empty or ends in a separator. -/
theorem splitDir_fst (path : Text) :
    (splitDir path).1 = [] ∨ ∃ dir, (splitDir path).1 = dir ++ ['/'] := by
  unfold splitDir
  cases rsplit '/' path with
  | none => exact .inl rfl
  | some ab => exact .inr ⟨ab.1, rfl⟩

/-- Stem and extension put the name back together. -/
theorem splitExt_append (name : Text) : (splitExt name).1 ++ (splitExt name).2 = name := by
  unfold splitExt
  cases h : rsplit '.' name with
  | none => simp
  | some ab =>
    obtain ⟨hn, -⟩ := rsplit_eq_some.mp h
    by_cases h0 : ab.1 = [] <;> simp [h0, hn]

/-- A name has no extension, or a stem and a dot. -/
theorem splitExt_cases (name : Text) : splitExt name = (name, []) ∨
    ∃ ext, (splitExt name).1 ≠ [] ∧ (splitExt name).2 = '.' :: ext := by
  unfold splitExt
  cases rsplit '.' name with
  | none => exact .inl rfl
  | some ab =>
    by_cases hstem : ab.1 = []
    · exact .inl (by simp [hstem])
    · exact .inr ⟨ab.2, by simp [hstem]⟩

end

/-! ## Candidates -/

/-- Ordinals tell candidates apart. -/
theorem ordinal_injective : Function.Injective ordinal := by
  intro m n h
  unfold ordinal at h
  by_cases hm : m = 1
  · by_cases hn : n = 1
    · rw [hm, hn]
    · simp [hm, hn] at h
  · by_cases hn : n = 1
    · simp [hm, hn] at h
    · rw [if_neg hm, if_neg hn, List.cons.injEq] at h
      rw [← Nat.ofDigitChars_ten_toDigits (n := m), h.2, Nat.ofDigitChars_ten_toDigits]

/-- Two candidates for one path differ. -/
theorem candidate_injective (path device stamp : Text) :
    Function.Injective (candidate path device stamp) := by
  intro m n h
  simp only [candidate, List.append_cancel_left_eq, List.append_cancel_right_eq,
    List.append_assoc] at h
  exact ordinal_injective h

/-- No digit is a separator. -/
theorem slash_not_mem_toDigits (n : Nat) : '/' ∉ Nat.toDigits 10 n := by
  intro h
  have := Nat.isDigit_of_mem_toDigits (by decide) (by decide) h
  exact absurd this (by decide)

/-- No ordinal has a separator. -/
theorem slash_not_mem_ordinal (n : Nat) : '/' ∉ ordinal n := by
  unfold ordinal
  split
  · simp
  · simpa using slash_not_mem_toDigits n

/-- The part of a candidate after the directory. -/
def candidateName (path device stamp : Text) (n : Nat) : Text :=
  (splitExt (splitDir path).2).1 ++ conflictLabel device stamp ++ ordinal n ++
    (splitExt (splitDir path).2).2

section
variable {path device stamp : Text} {n : Nat}

/-- A candidate is the path with its last name replaced. -/
theorem candidate_eq : candidate path device stamp n =
    (splitDir path).1 ++ candidateName path device stamp n := rfl

/-- A candidate's name carries the label's bracket. -/
theorem bracket_mem_candidateName : '(' ∈ candidateName path device stamp n := by
  have : '(' ∈ conflictFrom := by decide
  simp only [candidateName, conflictLabel, List.mem_append, this, true_or, or_true]

/-- A candidate's name has no separator when device and stamp have none. -/
theorem slash_not_mem_candidateName (hd : '/' ∉ device) (hs : '/' ∉ stamp) :
    '/' ∉ candidateName path device stamp n := by
  have hname : '/' ∉ (splitExt (splitDir path).2).1 ++ (splitExt (splitDir path).2).2 := by
    rw [splitExt_append]
    exact slash_not_mem_splitDir path
  have hord := slash_not_mem_ordinal n
  have hlabel : '/' ∉ conflictLabel device stamp := by
    have hfrom : '/' ∉ conflictFrom := by decide
    simp [conflictLabel, hfrom, hd, hs]
  simp only [List.mem_append, not_or] at hname
  simp only [candidateName, List.mem_append, hname, hord, hlabel, or_self, not_false_eq_true]

/-- A candidate has the directory prefixes of the path it is for. -/
theorem ancestors_candidate (hd : '/' ∉ device) (hs : '/' ∉ stamp) :
    ancestors (candidate path device stamp n) = ancestors path := by
  rw [candidate_eq, ancestors_append_of_not_mem (slash_not_mem_candidateName hd hs)
    (slash_not_mem_splitDir path), splitDir_append]

/-- A prefix without a character does not reach past it. -/
theorem prefix_of_prefix_append_cons {α : Type} {xs ys zs : List α} {c : α} (hc : c ∉ xs)
    (h : xs <+: ys ++ c :: zs) : xs <+: ys := by
  rcases List.prefix_or_prefix_of_prefix h (List.prefix_append ys (c :: zs)) with h' | ⟨rest, rfl⟩
  · exact h'
  · have hrest : rest <+: c :: zs := (List.prefix_append_right_inj ys).mp h
    rcases List.prefix_cons_iff.mp hrest with rfl | ⟨t, rfl, -⟩
    · simp
    · simp at hc

/-- A candidate's name is the stem with something after a space. -/
theorem candidateName_eq (path device stamp : Text) (n : Nat) : ∃ rest,
    candidateName path device stamp n = (splitExt (splitDir path).2).1 ++ ' ' :: rest := by
  have hfrom : conflictFrom = ' ' :: "(conflict from ".toList := by decide
  rw [candidateName, conflictLabel, hfrom]
  simp only [List.append_assoc, List.cons_append]
  exact ⟨_, rfl⟩

/-- A conflict copy of a file outside `.git` is outside `.git`. -/
theorem isGitPath_of_candidate (h : isGitPath (candidate path device stamp n) = true) :
    isGitPath path = true := by
  have hslash : '/' ∈ ".git/".toList := by decide
  simp only [isGitPath, Bool.or_eq_true, decide_eq_true_eq, List.isPrefixOf_iff_prefix] at h ⊢
  rw [candidate_eq] at h
  rcases h with h | h
  · have hb : '(' ∈ candidateName path device stamp n := bracket_mem_candidateName
    have : '(' ∈ ".git".toList := h ▸ List.mem_append_right _ hb
    exact absurd this (by decide)
  · rcases splitDir_fst path with hdir | ⟨dir, hdir⟩
    · rw [hdir, List.nil_append] at h
      have hstem : ".git/".toList <+: (splitExt (splitDir path).2).1 := by
        obtain ⟨rest, hrest⟩ := candidateName_eq path device stamp n
        rw [hrest] at h
        exact prefix_of_prefix_append_cons (by decide) h
      have hmem : '/' ∈ (splitDir path).2 := by
        rw [← splitExt_append (splitDir path).2]
        exact List.mem_append_left _ (hstem.subset hslash)
      exact absurd hmem (slash_not_mem_splitDir path)
    · refine .inr ?_
      rw [← splitDir_append path]
      rcases List.prefix_or_prefix_of_prefix h (List.prefix_append _ _) with h' | h'
      · exact h'.trans (List.prefix_append _ _)
      · rw [hdir] at h' ⊢
        have hgit : dir ++ ['/'] <+: ".git".toList ++ ['/'] := h'
        rcases List.prefix_concat_iff.mp hgit with h' | h'
        · rw [h']
          exact List.prefix_append _ _
        · exact absurd (h'.subset (by simp : '/' ∈ dir ++ ['/'])) (by decide)

/-- The `.env*` rule looks at the last name. -/
theorem isDotenv_eq (path : Text) : isDotenv path = ".env".toList.isPrefixOf (splitDir path).2 := by
  unfold splitDir isDotenv
  cases h : rsplit '/' path with
  | none => rw [List.splitOn_eq_singleton (rsplit_eq_none.mp h)]; rfl
  | some ab =>
    obtain ⟨hpath, hb⟩ := rsplit_eq_some.mp h
    rw [hpath, List.splitOn_append_cons_self, List.splitOn_eq_singleton hb, List.getLast?_append]
    rfl

/-- A name is an `.env*` file's when its stem is: a leading dot is no extension. -/
theorem dotenv_prefix_stem (name : Text) :
    ".env".toList <+: name ↔ ".env".toList <+: (splitExt name).1 := by
  constructor
  · intro hpre
    rcases splitExt_cases name with hwhole | ⟨ext, hstem, hext⟩
    · rwa [hwhole]
    rw [← splitExt_append name, hext] at hpre
    rcases List.prefix_or_prefix_of_prefix hpre (List.prefix_append _ _) with h | ⟨rest, hrest⟩
    · exact h
    · -- The stem would end inside `.env`, and the extension begin there with a dot.
      rw [← hrest, List.prefix_append_right_inj] at hpre
      rcases List.prefix_cons_iff.mp hpre with rfl | ⟨t, rfl, -⟩
      · rw [← hrest, List.append_nil]
      · obtain ⟨c, stem, hcons⟩ := List.exists_cons_of_ne_nil hstem
        rw [hcons, List.cons_append] at hrest
        have hdot : '.' ∈ ".env".toList.tail := by
          rw [← hrest]
          exact List.mem_append_right _ List.mem_cons_self
        exact absurd hdot (by decide)
  · exact fun h => (splitExt_append name) ▸ h.trans (List.prefix_append _ _)

/-- A candidate is in the directory of the path it is for, under its own last name. -/
theorem splitDir_candidate (hd : '/' ∉ device) (hs : '/' ∉ stamp) :
    splitDir (candidate path device stamp n) =
      ((splitDir path).1, candidateName path device stamp n) := by
  have hname : '/' ∉ candidateName path device stamp n := slash_not_mem_candidateName hd hs
  rw [candidate_eq]
  rcases splitDir_fst path with hdir | ⟨dir, hdir⟩
  · rw [hdir, List.nil_append, splitDir, rsplit_eq_none.mpr hname]
  · rw [hdir, List.append_assoc, splitDir, List.singleton_append, rsplit_eq_some.mpr ⟨rfl, hname⟩]

/-- **A candidate is an `.env*` file exactly when the file it is for is one.** -/
theorem isDotenv_candidate (hd : '/' ∉ device) (hs : '/' ∉ stamp) :
    isDotenv (candidate path device stamp n) = isDotenv path := by
  obtain ⟨rest, hrest⟩ := candidateName_eq path device stamp n
  rw [isDotenv_eq, isDotenv_eq, splitDir_candidate hd hs, hrest, Bool.eq_iff_iff,
    List.isPrefixOf_iff_prefix, List.isPrefixOf_iff_prefix, dotenv_prefix_stem (splitDir path).2]
  exact ⟨prefix_of_prefix_append_cons (by decide), fun h => h.trans (List.prefix_append _ _)⟩

/-- A candidate for a valid path is a valid path. -/
theorem ValidPath.candidate (h : ValidPath path) (hd : '/' ∉ device) (hs : '/' ∉ stamp) :
    ValidPath (Pear.candidate path device stamp n) := by
  have hslash : '/' ∉ candidateName path device stamp n := slash_not_mem_candidateName hd hs
  have hb : '(' ∈ candidateName path device stamp n := bracket_mem_candidateName
  have hname : candidateName path device stamp n ≠ [] ∧
      candidateName path device stamp n ≠ ['.', '.'] :=
    ⟨fun h => by simp [h] at hb, fun h => by simp [h] at hb⟩
  have hfirst : candidateName path device stamp n ≠ ['.'] ∧
      eqIgnoreAsciiCase (candidateName path device stamp n) pearDir = false := by
    refine ⟨fun h => by simp [h] at hb, ?_⟩
    by_contra hc
    rw [Bool.not_eq_false, eqIgnoreAsciiCase, decide_eq_true_eq] at hc
    have : '(' ∈ pearDir.map Char.toLower := hc ▸ List.mem_map_of_mem (f := Char.toLower) hb
    exact absurd this (by decide)
  rw [candidate_eq]
  rcases splitDir_fst path with hdir | ⟨dir, hdir⟩
  · rw [hdir, List.nil_append]
    have hp := List.splitOn_eq_singleton hslash
    exact ⟨by simpa [hp] using hname, by simpa [hp] using hfirst⟩
  · rw [hdir, List.append_assoc, List.singleton_append]
    have hnew := List.splitOn_append_cons_self (a := '/') dir (candidateName path device stamp n)
    have hold : path.splitOn '/' = dir.splitOn '/' ++ [(splitDir path).2] := by
      conv_lhs => rw [← splitDir_append path, hdir, List.append_assoc, List.singleton_append]
      rw [List.splitOn_append_cons_self, List.splitOn_eq_singleton (slash_not_mem_splitDir path)]
    rw [List.splitOn_eq_singleton hslash] at hnew
    obtain ⟨c, cs, hc⟩ : ∃ c cs, dir.splitOn '/' = c :: cs :=
      List.exists_cons_of_ne_nil (List.splitOn_ne_nil _ _)
    refine ⟨fun d hd => ?_, fun d hd => ?_⟩
    · rw [hnew, List.mem_append, List.mem_singleton] at hd
      rcases hd with hd | rfl
      · exact h.part d (by simp [hold, hd])
      · exact hname
    · rw [hnew, hc] at hd
      exact h.first d (by simpa [hold, hc] using hd)

end

/-! ## Claims -/

/-- Running out of fuel means that every candidate tried is taken. -/
theorem claimFrom_mem {taken : List Text} {name : Nat → Text} : ∀ {fuel n : Nat},
    claimFrom taken name fuel n ∈ taken → ∀ i ≤ fuel, name (n + i) ∈ taken
  | 0, n, h, i, hi => by
    obtain rfl : i = 0 := by omega
    exact h
  | fuel + 1, n, h, i, hi => by
    by_cases hn : name n ∈ taken
    · rw [claimFrom, if_pos hn] at h
      cases i with
      | zero => exact hn
      | succ i =>
        have := claimFrom_mem h i (by omega)
        rwa [show n + (i + 1) = n + 1 + i by omega]
    · rw [claimFrom, if_neg hn] at h
      exact absurd h hn

/-- A claim is one of the candidates. -/
theorem claimFrom_eq (taken : List Text) (name : Nat → Text) : ∀ fuel n : Nat,
    ∃ m, claimFrom taken name fuel n = name m
  | 0, n => ⟨n, rfl⟩
  | fuel + 1, n => by
    unfold claimFrom
    split
    · exact claimFrom_eq taken name fuel (n + 1)
    · exact ⟨n, rfl⟩

/-- **A claimed name was not taken**: with pairwise different candidates, a list of names cannot
hold one candidate more than its length. -/
theorem claimFrom_not_mem {taken : List Text} {name : Nat → Text} (inj : Function.Injective name)
    (n : Nat) : claimFrom taken name taken.length n ∉ taken := by
  intro h
  have hall := claimFrom_mem h
  have hsub : (List.range (taken.length + 1)).map (fun i => name (n + i)) ⊆ taken := by
    intro x hx
    obtain ⟨i, hi, rfl⟩ := List.mem_map.mp hx
    exact hall i (by have := List.mem_range.mp hi; omega)
  have hnodup : ((List.range (taken.length + 1)).map fun i => name (n + i)).Nodup :=
    List.nodup_range.map fun i j hij => by have := inj hij; omega
  have := (List.subperm_of_subset hnodup hsub).length_le
  simp at this

section
variable (names : NameSpace) (path device stamp : Text)

/-- The claimed name is new. -/
theorem claim_not_mem : (names.claim path device stamp).1 ∉ names.taken :=
  claimFrom_not_mem (candidate_injective path device stamp) 1

/-- The claimed name is a candidate. -/
theorem claim_eq_candidate : ∃ n, (names.claim path device stamp).1 = candidate path device stamp n :=
  claimFrom_eq _ _ _ _

/-- A claim takes its name and nothing else. -/
theorem claim_taken : (names.claim path device stamp).2.taken =
    (names.claim path device stamp).1 :: names.taken := rfl

end

/-- The names both inputs take: their keys and the directory prefixes of those. -/
theorem mem_taken_new {l r : FileMap} {q : Text} : q ∈ (NameSpace.new l r).taken ↔
    ∃ p, (l[p]? ≠ none ∨ r[p]? ≠ none) ∧ (q = p ∨ q ∈ ancestors p) := by
  simp only [NameSpace.new, List.mem_flatMap, List.mem_append, Lib.mem_keys_iff, List.mem_cons]

/-! ## Device and stamp -/

/-- Trimming adds no character. -/
theorem mem_of_mem_trim {c : Char} {s : Text} (h : c ∈ trim s) : c ∈ s := by
  rw [trim, List.mem_reverse] at h
  have h := (List.dropWhile_sublist _).subset h
  rw [List.mem_reverse] at h
  exact (List.dropWhile_sublist _).subset h

/-- A sanitized device name has no separator. -/
theorem slash_not_mem_sanitizeDevice (device : Text) : '/' ∉ sanitizeDevice device := by
  intro h
  simp only [sanitizeDevice] at h
  split at h
  · exact absurd h (by decide)
  · obtain ⟨c, -, hc⟩ := List.mem_map.mp (mem_of_mem_trim h)
    split at hc
    · exact absurd hc (by decide)
    · rename_i hn
      simp [hc] at hn

/-- A padded number has no separator. -/
theorem slash_not_mem_padded (width : Nat) (n : Int) : '/' ∉ padded width n := by
  intro h
  simp only [padded, List.leftpad, List.mem_append, List.mem_replicate] at h
  rcases h with ⟨-, h⟩ | h
  · exact absurd h (by decide)
  · exact slash_not_mem_toDigits _ h

/-- A stamp has no separator. -/
theorem slash_not_mem_conflictStamp (now : Int) : '/' ∉ conflictStamp now := by
  simp only [conflictStamp, List.mem_append, List.mem_cons, slash_not_mem_padded, or_false,
    false_or]
  decide

/-- Neither side's label has a separator. -/
theorem slash_not_mem_label (device : Text) (side : ConflictSide) :
    '/' ∉ side.label (sanitizeDevice device) := by
  cases side with
  | localSide => exact slash_not_mem_sanitizeDevice device
  | remoteSide =>
    show '/' ∉ "remote".toList
    decide

end Pear
