import Pear.Merge.Names

/-!
# Which files a scan captures

A scan walks the workspace twice (`scan.rs`). The first walk respects ignore files, the built-in
excludes and the `[sync]` table of `pear.toml`, and leaves the root `.git` to the second one, which
ignores ignore files but keeps only `.env*` files, what is below `.git`, and files an `include` names.
A walk reaches a file when it prunes none of its directories. Both rule files and ignore files are
files of the tree themselves, and the matching of ignore files and the parsing of `pear.toml` are
third-party code: `ScanRules` has them as arbitrary functions of those files' bytes.

What is captured depends on the tree through the rule files only (`ScanRules.captures_congr`), and no
conflict copy is one (`not_isRuleFile_candidate`).
-/

namespace Pear

/-- Directories that never sync (`BUILTIN_EXCLUDES`). -/
def builtinExcludes : List Text :=
  ["node_modules", "target", "dist", "build", "__pycache__", ".venv"].map String.toList

/-! ## The `[sync]` table -/

/-- Component-wise prefix match: `build` matches `build` and `build/x/y`, but not `rebuild`. -/
def matchesPrefix (rel pre : Text) : Bool :=
  rel = pre || (pre.isPrefixOf rel && (rel.drop pre.length).head? = some '/')

/-- The overrides of the exclusion rules, as root-relative path prefixes. -/
structure SyncConfig where
  /-- Paths to include again that the built-in excludes would prune. -/
  includePaths : List Text := []
  /-- Paths to exclude on top of everything else. -/
  excludePaths : List Text := []
deriving DecidableEq

/-- The last name of a path. -/
def lastName (path : Text) : Text := (splitDir path).2

/-- `trim_matches('/')`. -/
def trimSlashes (s : Text) : Text :=
  ((s.dropWhile (· = '/')).reverse.dropWhile (· = '/')).reverse

namespace SyncConfig

def includes (config : SyncConfig) (rel : Text) : Bool := config.includePaths.any (matchesPrefix rel)

def excludes (config : SyncConfig) (rel : Text) : Bool := config.excludePaths.any (matchesPrefix rel)

/-- An `include` entry names something strictly below `rel`. -/
def hasIncludeBelow (config : SyncConfig) (rel : Text) : Bool :=
  config.includePaths.any fun p =>
    rel.isPrefixOf p && (p.drop rel.length).head? = some '/' && 1 < (p.drop rel.length).length

/-- The loop of `shadowed` over the directories above a path, nearest first. -/
def shadowedBy (config : SyncConfig) : List Text → Bool
  | [] => false
  | ancestor :: rest =>
    if config.includes ancestor then false
    else if lastName ancestor ∈ builtinExcludes then true
    else config.shadowedBy rest

/-- Some directory above `rel` is excluded by its name, and no nearer one is included. -/
def shadowed (config : SyncConfig) (rel : Text) : Bool := config.shadowedBy (ancestors rel)

/-- Strip surrounding slashes and drop empty entries. -/
def normalized (config : SyncConfig) : SyncConfig where
  includePaths := (config.includePaths.map trimSlashes).filter (· ≠ [])
  excludePaths := (config.excludePaths.map trimSlashes).filter (· ≠ [])

end SyncConfig

/-! ## The walks -/

/-- A directory entry at the root of the workspace (`entry.depth() == 1`). -/
def atRoot (rel : Text) : Bool := '/' ∉ rel

/-- The rules of both walks for one entry, with `exclude` over `include` over the built-in names
(`is_not_excluded_dir`). The root `.pear` is pruned in any case of its name, as a file too. -/
def isNotExcludedDir (config : SyncConfig) (rel : Text) (isDir : Bool) : Bool :=
  let pearNamed := eqIgnoreAsciiCase (lastName rel) pearDir
  if isDir then
    if pearNamed then !atRoot rel
    else if config.excludes rel then false
    else if config.includes rel then true
    else if config.shadowed rel then false
    else if lastName rel ∈ builtinExcludes then config.hasIncludeBelow rel
    else true
  else
    if atRoot rel && pearNamed then false
    else if config.excludes rel then false
    else if config.includes rel then true
    else !config.shadowed rel

/-- The first walk's rules: also without the root `.git` directory. -/
def isScannablePass1 (config : SyncConfig) (rel : Text) (isDir : Bool) : Bool :=
  isNotExcludedDir config rel isDir && !(isDir && rel = ".git".toList)

/-- The second walk's rules: below `.git` only an `exclude` prunes. -/
def isScannablePass2 (config : SyncConfig) (rel : Text) (isDir : Bool) : Bool :=
  if isGitPath rel then !config.excludes rel else isNotExcludedDir config rel isDir

/-- A walk reaches a file when it keeps the file and every directory above it. -/
def walkReaches (keeps : Text → Bool → Bool) (path : Text) : Bool :=
  (ancestors path).all (keeps · true) && keeps path false

/-- The walks capture the regular file at a path (`scan`), where `ignored` says which entries the
ignore files match. -/
def scanCaptures (config : SyncConfig) (ignored : Text → Bool → Bool) (path : Text) : Bool :=
  walkReaches (fun rel isDir => isScannablePass1 config rel isDir && !ignored rel isDir) path ||
    walkReaches (isScannablePass2 config) path &&
      (isDotenv path || isGitPath path || config.includes path)

/-! ## Rule files -/

/-- Where a repository's own ignore rules are read from, below its directory. -/
def gitExclude : Text := ".git/info/exclude".toList

/-- The files the ignore rules are read from. With `git_exclude` and without `require_git`, nested
repositories' exclude files count. -/
def isIgnoreFile (path : Text) : Bool :=
  lastName path = ".gitignore".toList || lastName path = ".ignore".toList ||
    path = gitExclude || ('/' :: gitExclude).isSuffixOf path

/-- Where the `[sync]` table is read from. -/
def pearToml : Text := "pear.toml".toList

/-- The third-party parts of a scan: parsing `pear.toml`, which can fail, and matching an entry against
the ignore files. -/
structure ScanRules where
  parse : Bytes → Option SyncConfig
  ignored : (Text → Option Bytes) → Text → Bool → Bool

/-- The overrides in force: none when `pear.toml` is absent or does not parse (`load_sync_config`). -/
def ScanRules.config (R : ScanRules) (tree : Text → Option Bytes) : SyncConfig :=
  match (tree pearToml).bind R.parse with
  | some config => config.normalized
  | none => {}

/-- A scan of a tree captures the regular file at a path. -/
def ScanRules.captures (R : ScanRules) (tree : Text → Option Bytes) (path : Text) : Bool :=
  scanCaptures (R.config tree) (R.ignored fun q => if isIgnoreFile q then tree q else none) path

end Pear
