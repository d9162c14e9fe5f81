import Pear.Scan

/-!
# The precedence of the scan's rules

The documented precedence is `exclude` over `include` over the built-in names over ignore files
(`SyncConfig.wanted`). The walk decides by pruning: it keeps a file when it keeps every directory
above it. An `include` entry below a directory with a built-in name keeps that directory on the walk
(`has_include_below`), but not the directories between the two, which are pruned as `shadowed`. So a
deep `include` is lost exactly when such a directory stands between (`captures_wanted_iff`).
-/

namespace Pear

/-! ## Prefix matches -/

/-- An entry matches the path it names and everything below it. -/
theorem matchesPrefix_iff {rel pre : Text} :
    matchesPrefix rel pre = true ↔ rel = pre ∨ pre ∈ ancestors rel := by
  simp only [matchesPrefix, Bool.or_eq_true, decide_eq_true_eq, Bool.and_eq_true,
    List.isPrefixOf_iff_prefix, mem_ancestors]
  refine or_congr Iff.rfl ⟨?_, ?_⟩
  · rintro ⟨⟨rest, rfl⟩, hhead⟩
    rw [List.drop_left, List.head?_eq_some_iff] at hhead
    obtain ⟨r, rfl⟩ := hhead
    exact ⟨r, rfl⟩
  · rintro ⟨r, rfl⟩
    exact ⟨List.prefix_append _ _, by rw [List.drop_left]; rfl⟩

/-- What matches a directory matches what is below it. -/
theorem matchesPrefix_of_ancestor {pre d path : Text} (hd : d ∈ ancestors path)
    (h : matchesPrefix d pre = true) : matchesPrefix path pre = true := by
  rw [matchesPrefix_iff] at h ⊢
  rcases h with rfl | h
  · exact .inr hd
  · exact .inr (ancestors_trans h hd)

/-- Of two directories of one path, one is the other or above it. -/
theorem ancestors_total {p q path : Text} (hp : p ∈ ancestors path) (hq : q ∈ ancestors path) :
    p = q ∨ p ∈ ancestors q ∨ q ∈ ancestors p := by
  have step : ∀ {a b c r s : Text}, b = a ++ c → '/' :: r = c ++ '/' :: s →
      a = b ∨ a ∈ ancestors b := by
    intro a b c r s hb hc
    cases c with
    | nil => exact .inl (hb.trans (List.append_nil a)).symm
    | cons x c =>
      obtain ⟨rfl, -⟩ := List.cons.inj hc
      exact .inr (mem_ancestors.mpr ⟨c, hb⟩)
  obtain ⟨r, rfl⟩ := mem_ancestors.mp hp
  obtain ⟨s, hs⟩ := mem_ancestors.mp hq
  rcases List.append_eq_append_iff.mp hs with ⟨c, hq, hr⟩ | ⟨c, hp, hs⟩
  · exact (step hq hr).imp_right .inl
  · exact (step hp hs).elim (fun h => .inl h.symm) fun h => .inr (.inr h)

namespace SyncConfig

variable {config : SyncConfig} {path d : Text}

theorem includes_iff : config.includes path = true ↔
    path ∈ config.includePaths ∨ ∃ p ∈ config.includePaths, p ∈ ancestors path := by
  simp only [includes, List.any_eq_true, matchesPrefix_iff]
  constructor
  · rintro ⟨p, hp, rfl | hin⟩
    · exact .inl hp
    · exact .inr ⟨p, hp, hin⟩
  · rintro (hp | ⟨p, hp, hin⟩)
    · exact ⟨path, hp, .inl rfl⟩
    · exact ⟨p, hp, .inr hin⟩

theorem excludes_iff : config.excludes path = true ↔
    path ∈ config.excludePaths ∨ ∃ p ∈ config.excludePaths, p ∈ ancestors path :=
  @includes_iff ⟨config.excludePaths, []⟩ path

/-- What an entry includes of a directory it includes of the paths below. -/
theorem includes_of_ancestor (hd : d ∈ ancestors path) (h : config.includes d = true) :
    config.includes path = true := by
  obtain ⟨p, hp, hmatch⟩ := List.any_eq_true.mp h
  exact List.any_eq_true.mpr ⟨p, hp, matchesPrefix_of_ancestor hd hmatch⟩

theorem excludes_of_ancestor (hd : d ∈ ancestors path) (h : config.excludes d = true) :
    config.excludes path = true :=
  @includes_of_ancestor ⟨config.excludePaths, []⟩ path d hd h

/-- Without an included directory, a path is shadowed below any built-in name. -/
theorem shadowedBy_of_not_includes : ∀ {ds : List Text}, (∀ d ∈ ds, config.includes d = false) →
    config.shadowedBy ds = ds.any (lastName · ∈ builtinExcludes)
  | [], _ => rfl
  | d :: ds, h => by
    obtain ⟨hd, h⟩ := List.forall_mem_cons.mp h
    rw [shadowedBy, shadowedBy_of_not_includes h, hd, List.any_cons]
    by_cases hname : lastName d ∈ builtinExcludes <;> simp [hname]

/-- A directory above a path that is not included is shadowed below any built-in name. -/
theorem shadowed_of_not_includes (h : config.includes path = false) :
    config.shadowed path = (ancestors path).any (lastName · ∈ builtinExcludes) :=
  shadowedBy_of_not_includes fun d hd => by
    by_contra hinc
    exact Bool.eq_false_iff.mp h (includes_of_ancestor hd (by simpa using hinc))

/-- An entry of a normalized table does not end with a separator. -/
theorem getLast?_trimSlashes (s : Text) : (trimSlashes s).getLast? ≠ some '/' := by
  rw [trimSlashes, List.getLast?_reverse]
  intro h
  have := List.head?_dropWhile_not (· = '/') (s.dropWhile (· = '/')).reverse
  rw [h] at this
  simp at this

/-- **The walk descends from a directory to an `include` entry that matches a path below it**, when
the entry does not match the directory. -/
theorem hasIncludeBelow_of_includes (hd : d ∈ ancestors path)
    (h : config.normalized.includes path = true) (hnot : config.normalized.includes d = false) :
    config.normalized.hasIncludeBelow d = true := by
  obtain ⟨p, hp, hmatch⟩ := List.any_eq_true.mp h
  have hd' : d ∈ ancestors p := by
    rcases matchesPrefix_iff.mp hmatch with rfl | hpath
    · exact hd
    · rcases ancestors_total hd hpath with rfl | hdp | hpd
      · exact absurd (List.any_eq_true.mpr ⟨d, hp, matchesPrefix_iff.mpr (.inl rfl)⟩)
          (Bool.eq_false_iff.mp hnot)
      · exact hdp
      · exact absurd (List.any_eq_true.mpr ⟨p, hp, matchesPrefix_iff.mpr (.inr hpd)⟩)
          (Bool.eq_false_iff.mp hnot)
  obtain ⟨r, rfl⟩ := mem_ancestors.mp hd'
  have hr : r ≠ [] := by
    rintro rfl
    obtain ⟨s, -, hs⟩ := List.mem_map.mp (List.mem_filter.mp hp).1
    exact getLast?_trimSlashes s (by rw [hs]; simp)
  refine List.any_eq_true.mpr ⟨_, hp, ?_⟩
  have := List.length_pos_of_ne_nil hr
  simp [this]

end SyncConfig

/-! ## The walks -/

/-- The first name of a path. -/
def rootName (path : Text) : Text := path.takeWhile (· ≠ '/')

/-- An entry at the root is the first name of every path below it. -/
theorem rootName_of_atRoot {d path : Text} (hroot : atRoot d = true)
    (h : d = path ∨ d ∈ ancestors path) : rootName path = lastName d := by
  have hslash : '/' ∉ d := by simpa [atRoot] using hroot
  have hall : ∀ c ∈ d, decide (c ≠ '/') = true := fun c hc =>
    decide_eq_true fun (heq : c = '/') => hslash (heq ▸ hc)
  have hlast : lastName d = d := by
    rw [lastName, splitDir, rsplit_eq_none.mpr hslash]
  rw [hlast]
  rcases h with rfl | h
  · exact List.takeWhile_eq_self_iff.mpr hall
  · obtain ⟨r, rfl⟩ := mem_ancestors.mp h
    rw [rootName, List.takeWhile_append_of_pos hall]
    simp

section
variable {config : SyncConfig} {ignored : Text → Bool → Bool} {path d : Text}

/-- The rules keep a file and the directories above it. -/
def rulesKeep (config : SyncConfig) (path : Text) : Bool :=
  walkReaches (isNotExcludedDir config) path

/-- No ignore file matches a file or a directory above it. -/
def notIgnored (ignored : Text → Bool → Bool) (path : Text) : Bool :=
  walkReaches (fun rel isDir => !ignored rel isDir) path

/-- A walk with two rules is two walks. -/
theorem walkReaches_and {keeps keeps' : Text → Bool → Bool} :
    walkReaches (fun rel isDir => keeps rel isDir && keeps' rel isDir) path =
      (walkReaches keeps path && walkReaches keeps' path) := by
  rw [Bool.eq_iff_iff]
  simp only [walkReaches, Bool.and_eq_true, List.all_eq_true]
  exact ⟨fun ⟨h, hk, hk'⟩ => ⟨⟨fun d hd => (h d hd).1, hk⟩, fun d hd => (h d hd).2, hk'⟩,
    fun ⟨⟨h, hk⟩, h', hk'⟩ => ⟨fun d hd => ⟨h d hd, h' d hd⟩, hk, hk'⟩⟩

/-- Rules that agree on a file and the directories above it. -/
theorem walkReaches_congr {keeps keeps' : Text → Bool → Bool}
    (hdirs : ∀ d ∈ ancestors path, keeps d true = keeps' d true)
    (hfile : keeps path false = keeps' path false) :
    walkReaches keeps path = walkReaches keeps' path := by
  rw [walkReaches, walkReaches, hfile]
  congr 1
  exact Bool.eq_iff_iff.mpr (by
    rw [List.all_eq_true, List.all_eq_true]
    exact forall₂_congr fun d hd => by rw [hdirs d hd])

/-- What is below a path of `.git` is one. -/
theorem isGitPath_of_ancestor (hd : d ∈ ancestors path) (h : isGitPath d = true) :
    isGitPath path = true := by
  obtain ⟨r, rfl⟩ := mem_ancestors.mp hd
  simp only [isGitPath, Bool.or_eq_true, decide_eq_true_eq, List.isPrefixOf_iff_prefix] at h ⊢
  rcases h with rfl | ⟨rest, rfl⟩
  · exact .inr ⟨r, rfl⟩
  · exact .inr ⟨rest ++ '/' :: r, by rw [List.append_assoc]⟩

/-- **What a scan captures outside `.git`**: what the rules keep and no ignore file matches, and what
they keep anyway of an `.env*` file or an included one. -/
theorem scanCaptures_eq (hgit : isGitPath path = false) :
    scanCaptures config ignored path =
      (rulesKeep config path && (notIgnored ignored path || isDotenv path || config.includes path)) := by
  have hdirs : ∀ d ∈ ancestors path, isGitPath d = false := fun d hd =>
    Bool.eq_false_iff.mpr fun h => Bool.eq_false_iff.mp hgit (isGitPath_of_ancestor hd h)
  have hfirst : walkReaches (fun rel isDir => isScannablePass1 config rel isDir && !ignored rel isDir)
      path = (rulesKeep config path && notIgnored ignored path) := by
    rw [walkReaches_and, rulesKeep, notIgnored]
    congr 1
    refine walkReaches_congr (fun d hd => ?_) (by simp [isScannablePass1])
    have hne : decide (d = ".git".toList) = false := decide_eq_false fun heq =>
      absurd (hdirs d hd) (by rw [heq]; decide)
    rw [isScannablePass1, hne, Bool.and_false, Bool.not_false, Bool.and_true]
  have hsecond : walkReaches (isScannablePass2 config) path = rulesKeep config path :=
    walkReaches_congr (fun d hd => by simp [isScannablePass2, hdirs d hd])
      (by simp [isScannablePass2, hgit])
  rw [scanCaptures, hfirst, hsecond, hgit, Bool.or_false]
  cases rulesKeep config path <;> cases notIgnored ignored path <;> simp

/-- The rules for a directory above a file that is not below the root `.pear`. -/
theorem isNotExcludedDir_dir (hpear : eqIgnoreAsciiCase (rootName path) pearDir = false)
    (hd : d ∈ ancestors path) (hexc : config.excludes path = false) :
    isNotExcludedDir config d true = true ↔ eqIgnoreAsciiCase (lastName d) pearDir = true ∨
      config.includes d = true ∨ config.shadowed d = false ∧
        (lastName d ∈ builtinExcludes → config.hasIncludeBelow d = true) := by
  have hexc' : config.excludes d = false := Bool.eq_false_iff.mpr fun h =>
    Bool.eq_false_iff.mp hexc (SyncConfig.excludes_of_ancestor hd h)
  cases hname : eqIgnoreAsciiCase (lastName d) pearDir with
  | true =>
    have hroot : atRoot d = false := Bool.eq_false_iff.mpr fun h => by
      rw [rootName_of_atRoot h (.inr hd), hname] at hpear
      cases hpear
    simp [isNotExcludedDir, hname, hroot]
  | false =>
    by_cases hbuiltin : lastName d ∈ builtinExcludes
    all_goals
      simp only [isNotExcludedDir, hname, hexc', hbuiltin, if_true, if_false, Bool.false_eq_true,
        false_or, true_imp_iff, false_imp_iff, and_true]
      cases config.includes d <;> cases config.shadowed d <;> simp

/-- And for a file. -/
theorem isNotExcludedDir_file : isNotExcludedDir config path false = true ↔
    (atRoot path && eqIgnoreAsciiCase (lastName path) pearDir) = false ∧
      config.excludes path = false ∧
      (config.includes path = true ∨ config.shadowed path = false) := by
  cases hroot : atRoot path && eqIgnoreAsciiCase (lastName path) pearDir with
  | true => simp [isNotExcludedDir, hroot]
  | false =>
    simp only [isNotExcludedDir, hroot, Bool.false_eq_true, if_false]
    cases config.excludes path <;> cases config.includes path <;> cases config.shadowed path <;> simp

/-- A file that is not below the root `.pear` is not it. -/
theorem not_root_pear (hpear : eqIgnoreAsciiCase (rootName path) pearDir = false) :
    (atRoot path && eqIgnoreAsciiCase (lastName path) pearDir) = false := by
  cases h : atRoot path with
  | false => rfl
  | true => rw [← rootName_of_atRoot h (.inl rfl), hpear]; rfl

end

/-! ## The documented precedence -/

/-- The documented precedence: no `exclude` entry matches a path, and an `include` entry does unless no
directory above has a built-in name, but for those an `include` entry matches. -/
def SyncConfig.wanted (config : SyncConfig) (path : Text) : Bool :=
  !config.excludes path && (config.includes path ||
    (ancestors path).all fun d => lastName d ∉ builtinExcludes || config.includes d)

/-- Every directory above a path is matched by an `include` entry, or named `.pear`, or has no
directory with a built-in name above it. -/
def SyncConfig.NoShadow (config : SyncConfig) (path : Text) : Prop :=
  ∀ d ∈ ancestors path, config.includes d = true ∨ eqIgnoreAsciiCase (lastName d) pearDir = true ∨
    ∀ a ∈ ancestors d, lastName a ∉ builtinExcludes

/-- **The walk follows the documented precedence** on a file outside the root `.pear` and `.git` that no
ignore file matches, exactly when the path is excluded, not included, or unshadowed. -/
theorem captures_wanted_iff (config : SyncConfig) {ignored : Text → Bool → Bool} {path : Text}
    (hpear : eqIgnoreAsciiCase (rootName path) pearDir = false) (hgit : isGitPath path = false)
    (hignored : notIgnored ignored path = true) :
    (scanCaptures config.normalized ignored path = true ↔ config.normalized.wanted path = true) ↔
      config.normalized.excludes path = true ∨ config.normalized.includes path = false ∨
        config.normalized.NoShadow path := by
  rw [scanCaptures_eq hgit, hignored, Bool.true_or, Bool.true_or, Bool.and_true, SyncConfig.wanted]
  generalize hnorm : config.normalized = c
  have hkeep : rulesKeep c path = true ↔
      (∀ d ∈ ancestors path, isNotExcludedDir c d true = true) ∧ c.excludes path = false ∧
        (c.includes path = true ∨ c.shadowed path = false) := by
    rw [rulesKeep, walkReaches, Bool.and_eq_true, List.all_eq_true, isNotExcludedDir_file,
      and_iff_right (not_root_pear hpear)]
  cases hexc : c.excludes path with
  | true => simp [hkeep, hexc]
  | false =>
    cases hinc : c.includes path with
    | false =>
      have hdirs : ∀ d ∈ ancestors path, c.includes d = false := fun d hd =>
        Bool.eq_false_iff.mpr fun h => Bool.eq_false_iff.mp hinc (SyncConfig.includes_of_ancestor hd h)
      have hshadow : c.shadowed path = false ↔ ∀ d ∈ ancestors path, lastName d ∉ builtinExcludes := by
        simp [SyncConfig.shadowed_of_not_includes hinc]
      have hwanted : ((ancestors path).all fun d => lastName d ∉ builtinExcludes || c.includes d) =
          true ↔ c.shadowed path = false := by
        rw [hshadow, List.all_eq_true]
        exact forall₂_congr fun d hd => by simp [hdirs d hd]
      rw [hkeep, Bool.not_false, Bool.true_and, Bool.false_or, hwanted]
      refine iff_of_true ⟨fun h => ?_, fun h => ⟨fun d hd => ?_, hexc, .inr h⟩⟩ (.inr (.inl rfl))
      · exact h.2.2.resolve_left (by simp [hinc])
      · -- No directory has a built-in name, so none is shadowed.
        refine (isNotExcludedDir_dir hpear hd hexc).mpr (.inr (.inr ⟨?_, fun hname => ?_⟩))
        · rw [SyncConfig.shadowed_of_not_includes (hdirs d hd)]
          simpa using fun a ha => hshadow.mp h a (ancestors_trans ha hd)
        · exact absurd hname (hshadow.mp h d hd)
    | true =>
      rw [hkeep, Bool.not_false, Bool.true_and, Bool.true_or]
      simp only [hexc, hinc, Bool.false_eq_true, Bool.true_eq_false, true_or, and_true, iff_true,
        false_or]
      refine forall₂_congr fun d hd => ?_
      rw [isNotExcludedDir_dir hpear hd hexc]
      cases hdinc : c.includes d with
      | true => simp
      | false =>
        have hbelow : c.hasIncludeBelow d = true := by
          subst hnorm
          exact SyncConfig.hasIncludeBelow_of_includes hd hinc hdinc
        simp [hbelow, SyncConfig.shadowed_of_not_includes hdinc]

/-- An `include` of a directory with a built-in name. -/
theorem captures_wanted_iff_build :
    let config : SyncConfig := { includePaths := ["build/".toList] }
    let path := "build/lib.rs".toList
    (scanCaptures config.normalized (fun _ _ => false) path = true ↔
      config.normalized.wanted path = true) ↔
        config.normalized.excludes path = true ∨ config.normalized.includes path = false ∨
          config.normalized.NoShadow path :=
  captures_wanted_iff _ (by decide) (by decide) (by decide)

/-- **An `include` two levels below a built-in name is a no-op**: the directory between is pruned. -/
theorem deep_include_lost :
    let config : SyncConfig := { includePaths := ["node_modules/foo/bar".toList] }
    let path := "node_modules/foo/bar/x.js".toList
    eqIgnoreAsciiCase (rootName path) pearDir = false ∧ isGitPath path = false ∧
      config.normalized.wanted path = true ∧
      scanCaptures config.normalized (fun _ _ => false) path = false := by
  decide

end Pear
