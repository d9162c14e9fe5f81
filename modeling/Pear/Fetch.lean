import Pear.Frame
import Pear.Mirror

/-!
# Fetch planning

`plan_fetch_batches` (`sync.rs`) splits the chunks that a pull or a converge must download into
batches, file by file. A file's new chunks stay together, and a batch of two files or more keeps both
caps. The byte count is a `u64` that adds up sizes from the head, which nothing bounds: an addition
that leaves its range panics, or wraps around in a build without overflow checks.

`FetchPlan.advance` is the step with unbounded numbers. It is the loop's step as long as the sums stay
in range, so what a plan guarantees is an invariant of `advance` (`Packed`), and the plan overflows
exactly when a sum that `advance` reaches is out of range (`fetch_sums_in_range_iff`).
-/

namespace Pear

open Pear.Frame (getManyMaxHashes getManyTargetBytes)

/-- What an addition does that leaves the range of `u64`: it panics in a build with overflow checks,
and wraps around in one without (as the release profile). -/
inductive Overflow where
  | panics
  | wraps
deriving DecidableEq

/-- An addition on `u64`, `none` on a panic. -/
def Overflow.add (o : Overflow) (a b : Nat) : Option Nat :=
  if a + b < 2 ^ 64 then some (a + b)
  else
    match o with
    | .panics => none
    | .wraps => some ((a + b) % 2 ^ 64)

/-- What the loop of `plan_fetch_batches` carries. -/
structure FetchPlan where
  batches : List (List Text) := []
  current : List Text := []
  currentBytes : Nat := 0
  planned : List Text := []

/-- `filter(|h| planned.insert(h))`: the hashes that were not planned yet, and those that are now. -/
def takeNew (planned : List Text) : List Text → List Text × List Text
  | [] => ([], planned)
  | h :: hs =>
    if h ∈ planned then takeNew planned hs
    else
      let (new, planned) := takeNew (h :: planned) hs
      (h :: new, planned)

/-- One file of the loop. -/
def FetchPlan.step (o : Overflow) (s : FetchPlan) (entry : FileEntry) : Option FetchPlan := do
  let (new, planned) := takeNew s.planned entry.chunks
  let full ←
    if s.current = [] then some false
    else if getManyMaxHashes < s.current.length + new.length then some true
    else (o.add s.currentBytes entry.size).map fun bytes => decide (getManyTargetBytes < bytes)
  let s := if full then { s with batches := s.batches ++ [s.current], current := [], currentBytes := 0 }
    else s
  let bytes ← o.add s.currentBytes entry.size
  return { s with current := s.current ++ new, currentBytes := bytes, planned }

/-- The batches at the end of the loop. -/
def FetchPlan.finish (s : FetchPlan) : List (List Text) :=
  if s.current = [] then s.batches else s.batches ++ [s.current]

/-- `plan_fetch_batches`, `none` on a panic. -/
def planFetchBatches (o : Overflow) (needed : List (Text × FileEntry)) : Option (List (List Text)) :=
  (needed.foldlM (fun (s : FetchPlan) f => s.step o f.2) {}).map FetchPlan.finish

/-- What `pull_inner` needs of a head, with the manifest it recorded last. -/
def pullNeeded (recorded head : FileMap) : List (Text × FileEntry) :=
  let wire := maskModes head
  ((diff recorded wire).added ++ (diff recorded wire).changed).filterMap fun rel =>
    wire[rel]?.map (rel, ·)

/-- What `fetch_for_apply` needs of a merge. -/
def convergeNeeded (out : MergeOutcome) : List (Text × FileEntry) :=
  ((out.applyFromRemote.added ++ out.applyFromRemote.changed).filterMap fun rel =>
      out.merged.files[rel]?.map (rel, ·)) ++
    (out.conflicts.filter fun c => c.localOnly && c.side = .remoteSide).map fun c =>
      (c.copyPath, c.entry)

/-! ## New chunks -/

/-- The chunks of some files, in order. -/
def chunksOf (files : List (Text × FileEntry)) : List Text := files.flatMap (·.2.chunks)

/-- The chunks that a file brings to a plan of the files before it. -/
def newChunks (before : List (Text × FileEntry)) (entry : FileEntry) : List Text :=
  (entry.chunks.removeAll (chunksOf before)).eraseDups

section
variable {planned planned' hs : List Text} {before files : List (Text × FileEntry)} {entry : FileEntry}

theorem removeAll_cons_right (h : Text) (hs planned : List Text) :
    hs.removeAll (h :: planned) = (hs.removeAll planned).filter fun x => !x == h := by
  simp only [List.removeAll, List.filter_filter]
  refine List.filter_congr fun x _ => ?_
  simp
  grind

theorem removeAll_congr (h : ∀ x, x ∈ planned ↔ x ∈ planned') :
    hs.removeAll planned = hs.removeAll planned' := by
  refine List.filter_congr fun x _ => ?_
  simp [h x]

theorem takeNew_fst : ∀ (hs planned : List Text),
    (takeNew planned hs).1 = (hs.removeAll planned).eraseDups
  | [], _ => rfl
  | h :: hs, planned => by
    by_cases hmem : h ∈ planned
    · simp [takeNew, hmem, takeNew_fst hs, List.cons_removeAll]
    · simp [takeNew, hmem, takeNew_fst hs, List.cons_removeAll, List.eraseDups_cons,
        removeAll_cons_right]

theorem mem_takeNew_snd {x : Text} : ∀ (hs planned : List Text),
    x ∈ (takeNew planned hs).2 ↔ x ∈ planned ∨ x ∈ hs
  | [], _ => by simp [takeNew]
  | h :: hs, planned => by
    by_cases hmem : h ∈ planned
    · simp only [takeNew, hmem, if_true, mem_takeNew_snd hs, List.mem_cons]
      grind
    · simp only [takeNew, hmem, if_false, mem_takeNew_snd hs, List.mem_cons]
      grind

/-- First occurrences are distinct. -/
theorem nodup_eraseDups : ∀ hs : List Text, hs.eraseDups.Nodup
  | [] => by simp
  | h :: hs => by
    rw [List.eraseDups_cons, List.nodup_cons]
    exact ⟨by simp, nodup_eraseDups (hs.filter fun x => !x == h)⟩
termination_by hs => hs.length
decreasing_by exact Nat.lt_succ_of_le (List.length_filter_le _ _)

/-- A file appends its new chunks to the first occurrences. -/
theorem eraseDups_chunksOf_append (before : List (Text × FileEntry)) (f : Text × FileEntry) :
    (chunksOf (before ++ [f])).eraseDups = (chunksOf before).eraseDups ++ newChunks before f.2 := by
  rw [chunksOf, List.flatMap_append, List.eraseDups_append, List.flatMap_singleton]
  rfl

end

/-! ## The loop with unbounded numbers -/

/-- Does the next file close the batch? -/
def FetchPlan.Closes (s : FetchPlan) (size count : Nat) : Prop :=
  s.current ≠ [] ∧
    (getManyMaxHashes < s.current.length + count ∨ getManyTargetBytes < s.currentBytes + size)

instance (s : FetchPlan) (size count : Nat) : Decidable (s.Closes size count) :=
  inferInstanceAs (Decidable (_ ∧ _))

/-- The step with unbounded numbers. -/
def FetchPlan.advance (s : FetchPlan) (entry : FileEntry) : FetchPlan :=
  let (new, planned) := takeNew s.planned entry.chunks
  if s.Closes entry.size new.length then
    { batches := s.batches ++ [s.current], current := new, currentBytes := entry.size, planned }
  else
    { s with current := s.current ++ new, currentBytes := s.currentBytes + entry.size, planned }

/-- The sums of a step are in range. The byte count is not looked at when the hashes are too many. -/
def FetchPlan.InRange (s : FetchPlan) (entry : FileEntry) : Prop :=
  entry.size < 2 ^ 64 ∧
    (s.current = [] ∨
      s.current.length + (takeNew s.planned entry.chunks).1.length ≤ getManyMaxHashes →
        s.currentBytes + entry.size < 2 ^ 64)

section
variable {o : Overflow} {s : FetchPlan} {entry : FileEntry} {a b : Nat}

theorem Overflow.add_of_lt (h : a + b < 2 ^ 64) : o.add a b = some (a + b) := if_pos h

theorem Overflow.add_panics (h : ¬ a + b < 2 ^ 64) : Overflow.panics.add a b = none := if_neg h

/-- In range, the loop's step is the unbounded one. -/
theorem FetchPlan.step_of_inRange (h : s.InRange entry) : s.step o entry = some (s.advance entry) := by
  obtain ⟨hsize, hsum⟩ := h
  have hzero : o.add 0 entry.size = some entry.size := by
    rw [Overflow.add_of_lt (by simpa using hsize), Nat.zero_add]
  by_cases hempty : s.current = []
  · have hadd := Overflow.add_of_lt (o := o) (hsum (.inl hempty))
    simp [step, advance, Closes, hempty, hadd]
  by_cases hcount : getManyMaxHashes < s.current.length + (takeNew s.planned entry.chunks).1.length
  · simp [step, advance, Closes, hempty, hcount, hzero]
  · have hadd := Overflow.add_of_lt (o := o) (hsum (.inr (Nat.not_lt.mp hcount)))
    by_cases hbytes : getManyTargetBytes < s.currentBytes + entry.size
    · simp [step, advance, Closes, hempty, hcount, hadd, hbytes, hzero]
    · simp [step, advance, Closes, hempty, hcount, hadd, hbytes]

/-- Out of range, an addition panics. -/
theorem FetchPlan.step_of_not_inRange (h : ¬ s.InRange entry) : s.step .panics entry = none := by
  have hsize : ¬ entry.size < 2 ^ 64 → ∀ a, Overflow.panics.add a entry.size = none :=
    fun hsize a => Overflow.add_panics (by omega)
  by_cases hempty : s.current = []
  · have hadd : Overflow.panics.add s.currentBytes entry.size = none :=
      Overflow.add_panics fun hlt => h ⟨by omega, fun _ => hlt⟩
    simp [step, hempty, hadd]
  by_cases hcount : getManyMaxHashes < s.current.length + (takeNew s.planned entry.chunks).1.length
  · have hzero : Overflow.panics.add 0 entry.size = none :=
      hsize (fun hlt => h ⟨hlt, fun hor => absurd (hor.resolve_left hempty) (by omega)⟩) 0
    simp [step, hempty, hcount, hzero]
  · have hadd : Overflow.panics.add s.currentBytes entry.size = none :=
      Overflow.add_panics fun hlt => h ⟨by omega, fun _ => hlt⟩
    simp [step, hempty, hcount, hadd]

end

/-! ## What a plan guarantees -/

/-- A file's share of a plan: its size and its new chunks. -/
structure FetchGroup where
  size : Nat
  fresh : List Text

/-- The shares of files that come after others. -/
def groupsFrom (before : List (Text × FileEntry)) : List (Text × FileEntry) → List FetchGroup
  | [] => []
  | f :: rest => ⟨f.2.size, newChunks before f.2⟩ :: groupsFrom (before ++ [f]) rest

/-- The chunks of some shares. -/
def groupChunks (gs : List FetchGroup) : List Text := gs.flatMap (·.fresh)

/-- Their sizes together. -/
def groupSize (gs : List FetchGroup) : Nat := (gs.map (·.size)).sum

/-- The shares that bring chunks. -/
def contributing (gs : List FetchGroup) : List FetchGroup := gs.filter (·.fresh ≠ [])

/-- Within both caps, unless one file alone brings the chunks. -/
def WithinCaps (gs : List FetchGroup) : Prop :=
  2 ≤ (contributing gs).length →
    (groupChunks gs).length ≤ getManyMaxHashes ∧ groupSize gs ≤ getManyTargetBytes

section
variable {before rest : List (Text × FileEntry)} {f : Text × FileEntry} {gs gs' : List FetchGroup}

theorem groupsFrom_append : ∀ (before rest rest' : List (Text × FileEntry)),
    groupsFrom before (rest ++ rest') = groupsFrom before rest ++ groupsFrom (before ++ rest) rest'
  | before, [], rest' => by simp [groupsFrom]
  | before, f :: rest, rest' => by
    simp [groupsFrom, groupsFrom_append (before ++ [f]) rest rest']

/-- The shares' chunks are the first occurrences. -/
theorem groupChunks_groupsFrom : ∀ (before rest : List (Text × FileEntry)),
    (chunksOf (before ++ rest)).eraseDups =
      (chunksOf before).eraseDups ++ groupChunks (groupsFrom before rest)
  | before, [] => by simp [groupsFrom, groupChunks]
  | before, f :: rest => by
    have h := groupChunks_groupsFrom (before ++ [f]) rest
    rw [List.append_assoc, List.singleton_append, eraseDups_chunksOf_append] at h
    rw [h, groupsFrom, groupChunks, groupChunks, List.flatMap_cons, List.append_assoc]

@[simp] theorem groupChunks_append : groupChunks (gs ++ gs') = groupChunks gs ++ groupChunks gs' :=
  List.flatMap_append

@[simp] theorem groupSize_append : groupSize (gs ++ gs') = groupSize gs + groupSize gs' := by
  simp [groupSize]

theorem contributing_append : contributing (gs ++ gs') = contributing gs ++ contributing gs' :=
  List.filter_append _ _

theorem contributing_eq_nil (h : groupChunks gs = []) : contributing gs = [] := by
  refine List.filter_eq_nil_iff.mpr fun g hg => ?_
  simpa using List.flatMap_eq_nil_iff.mp h g hg

end

/-- What the loop keeps: the files so far lie in parts, a closed part for each batch. -/
structure Packed (before : List (Text × FileEntry)) (s : FetchPlan) (parts : List (List FetchGroup))
    (last : List FetchGroup) : Prop where
  planned : ∀ h, h ∈ s.planned ↔ h ∈ chunksOf before
  groups : parts.flatten ++ last = groupsFrom [] before
  batches : s.batches = parts.map groupChunks
  current : s.current = groupChunks last
  bytes : s.currentBytes = groupSize last
  closed : ∀ p ∈ parts, groupChunks p ≠ [] ∧ WithinCaps p
  caps : WithinCaps last

/-- A part that one share alone makes up is within the caps. -/
theorem withinCaps_append_one (gs : List FetchGroup) {g : FetchGroup} (h : contributing gs = []) :
    WithinCaps (gs ++ [g]) := by
  intro htwo
  rw [contributing_append, h, List.nil_append] at htwo
  have hle : (contributing [g]).length ≤ 1 := List.length_filter_le _ _
  omega

/-- The next file keeps it. -/
theorem Packed.advance {before : List (Text × FileEntry)} {s : FetchPlan}
    {parts : List (List FetchGroup)} {last : List FetchGroup} (h : Packed before s parts last)
    (f : Text × FileEntry) :
    ∃ parts' last', Packed (before ++ [f]) (s.advance f.2) parts' last' := by
  have hnew : (takeNew s.planned f.2.chunks).1 = newChunks before f.2 := by
    rw [takeNew_fst, newChunks, removeAll_congr h.planned]
  have hplanned : ∀ x, x ∈ (takeNew s.planned f.2.chunks).2 ↔ x ∈ chunksOf (before ++ [f]) := by
    intro x
    rw [mem_takeNew_snd, h.planned]
    simp [chunksOf]
  have hgroups : parts.flatten ++ last ++ [⟨f.2.size, newChunks before f.2⟩] =
      groupsFrom [] (before ++ [f]) := by
    rw [groupsFrom_append, h.groups]
    rfl
  by_cases hcloses : s.Closes f.2.size (newChunks before f.2).length
  · refine ⟨parts ++ [last], [⟨f.2.size, newChunks before f.2⟩], ?_⟩
    simp only [FetchPlan.advance, hnew, hcloses, if_true]
    refine ⟨hplanned, by simpa using hgroups, by simp [h.batches, h.current], by simp [groupChunks],
      by simp [groupSize], fun p hp => ?_, withinCaps_append_one [] rfl⟩
    rcases List.mem_append.mp hp with hp | hp
    · exact h.closed p hp
    · obtain rfl := List.mem_singleton.mp hp
      exact ⟨h.current ▸ hcloses.1, h.caps⟩
  · refine ⟨parts, last ++ [⟨f.2.size, newChunks before f.2⟩], ?_⟩
    simp only [FetchPlan.advance, hnew, hcloses, if_false]
    refine ⟨hplanned, by simpa using hgroups, h.batches, by simp [h.current, groupChunks],
      by simp [h.bytes, groupSize], h.closed, ?_⟩
    by_cases hempty : s.current = []
    · exact withinCaps_append_one _ (contributing_eq_nil (h.current ▸ hempty))
    · have hfits := not_or.mp fun hor => hcloses ⟨hempty, hor⟩
      rw [h.current, h.bytes, Nat.not_lt, Nat.not_lt] at hfits
      intro _
      simpa [groupChunks, groupSize] using hfits

/-- The shares that bring chunks to a batch. -/
def contributors (needed : List (Text × FileEntry)) (batch : List Text) : List FetchGroup :=
  (groupsFrom [] needed).filter fun g => g.fresh.any (· ∈ batch)

/-- A plan covers what is needed within the caps. -/
structure FetchCovers (needed : List (Text × FileEntry)) (batches : List (List Text)) : Prop where
  /-- In order, each chunk once. -/
  concat : batches.flatten = (chunksOf needed).eraseDups
  nonempty : ∀ b ∈ batches, b ≠ []
  /-- A file's new chunks are in one batch. -/
  together : ∀ before f after, needed = before ++ f :: after → newChunks before f.2 ≠ [] →
    ∃ b ∈ batches, newChunks before f.2 <:+: b
  caps : ∀ b ∈ batches, 2 ≤ (contributors needed b).length →
    b.length ≤ getManyMaxHashes ∧ groupSize (contributors needed b) ≤ getManyTargetBytes

section
variable {needed before rest : List (Text × FileEntry)} {s : FetchPlan} {o : Overflow}
  {parts : List (List FetchGroup)} {gs last pre part post : List FetchGroup}

theorem groupSize_groupsFrom : ∀ before rest : List (Text × FileEntry),
    groupSize (groupsFrom before rest) = (rest.map (·.2.size)).sum
  | _, [] => rfl
  | before, f :: rest => by
    have h := groupSize_groupsFrom (before ++ [f]) rest
    simp [groupsFrom, groupSize, ← h]

/-- Where chunks are told apart, those of a part come from its own shares. -/
theorem contributors_part (hnodup : (groupChunks (pre ++ part ++ post)).Nodup) :
    (pre ++ part ++ post).filter (fun g => g.fresh.any (· ∈ groupChunks part)) = contributing part := by
  rw [groupChunks_append, groupChunks_append, List.nodup_append, List.nodup_append] at hnodup
  obtain ⟨⟨-, -, hpre⟩, -, hpost⟩ := hnodup
  have hmem : ∀ {gs : List FetchGroup} {g : FetchGroup} {h : Text}, g ∈ gs → h ∈ g.fresh →
      h ∈ groupChunks gs := fun hg hh => List.mem_flatMap.mpr ⟨_, hg, hh⟩
  have houter : ∀ gs : List FetchGroup, (∀ h ∈ groupChunks gs, h ∉ groupChunks part) →
      gs.filter (fun g => g.fresh.any (· ∈ groupChunks part)) = [] := by
    intro gs hgs
    refine List.filter_eq_nil_iff.mpr fun g hg hany => ?_
    obtain ⟨h, hh, hin⟩ := List.any_eq_true.mp hany
    exact hgs h (hmem hg hh) (of_decide_eq_true hin)
  rw [List.filter_append, List.filter_append, houter pre fun h hh hin => hpre h hh h hin rfl,
    houter post fun h hh hin => hpost h (List.mem_append_right _ hin) h hh rfl, List.nil_append,
    List.append_nil]
  refine List.filter_congr fun g hg => ?_
  rw [Bool.eq_iff_iff, List.any_eq_true, decide_eq_true_eq]
  constructor
  · rintro ⟨h, hh, -⟩ hnil
    exact nomatch hnil ▸ hh
  · intro hne
    obtain ⟨h, hh⟩ := List.exists_mem_of_ne_nil _ hne
    exact ⟨h, hh, decide_eq_true (hmem hg hh)⟩

theorem groupSize_contributing_le : groupSize (contributing gs) ≤ groupSize gs :=
  ((List.filter_sublist (l := gs)).map _).sum_le_sum fun _ _ => Nat.zero_le _

/-- The parts are a plan's batches: nothing is left over. -/
theorem covers_of_parts (rest : List FetchGroup)
    (hgroups : parts.flatten ++ rest = groupsFrom [] needed)
    (hclosed : ∀ p ∈ parts, groupChunks p ≠ [] ∧ WithinCaps p) (hrest : groupChunks rest = []) :
    FetchCovers needed (parts.map groupChunks) := by
  have hconcat : groupChunks (groupsFrom [] needed) = (chunksOf needed).eraseDups :=
    (groupChunks_groupsFrom [] needed).symm
  have hnodup : (groupChunks (groupsFrom [] needed)).Nodup := hconcat ▸ nodup_eraseDups _
  refine ⟨?_, ?_, ?_, ?_⟩
  · rw [← hconcat, ← hgroups, groupChunks_append, hrest, List.append_nil, groupChunks, List.flatMap_def,
      List.map_flatten, List.flatten_flatten, List.map_map]
    rfl
  · intro b hb
    obtain ⟨p, hp, rfl⟩ := List.mem_map.mp hb
    exact (hclosed p hp).1
  · rintro before f after rfl hne
    have hg : ⟨f.2.size, newChunks before f.2⟩ ∈ parts.flatten ++ rest := by
      rw [hgroups, groupsFrom_append]
      exact List.mem_append_right _ List.mem_cons_self
    rcases List.mem_append.mp hg with hg | hg
    · obtain ⟨p, hp, hg⟩ := List.mem_flatten.mp hg
      obtain ⟨l, r, rfl⟩ := List.append_of_mem hg
      refine ⟨_, List.mem_map_of_mem hp, groupChunks l, groupChunks r, ?_⟩
      simp [groupChunks]
    · exact absurd (List.flatMap_eq_nil_iff.mp hrest _ hg) hne
  · intro b hb htwo
    obtain ⟨p, hp, rfl⟩ := List.mem_map.mp hb
    obtain ⟨l, r, rfl⟩ := List.append_of_mem hp
    have hpart : contributors needed (groupChunks p) = contributing p := by
      have hsplit : groupsFrom [] needed = l.flatten ++ p ++ (r.flatten ++ rest) := by
        simp [← hgroups]
      rw [contributors, hsplit, contributors_part (hsplit ▸ hnodup)]
    rw [hpart] at htwo ⊢
    obtain ⟨hcount, hbytes⟩ := (hclosed p hp).2 htwo
    exact ⟨hcount, groupSize_contributing_le.trans hbytes⟩

/-- At the end of the loop, the batches cover what is needed. -/
theorem Packed.covers (h : Packed needed s parts last) : FetchCovers needed s.finish := by
  unfold FetchPlan.finish
  split
  · rename_i hempty
    rw [h.batches]
    exact covers_of_parts _ h.groups h.closed (h.current ▸ hempty)
  · rename_i hne
    have hbatches : s.batches ++ [s.current] = (parts ++ [last]).map groupChunks := by
      simp [h.batches, h.current]
    rw [hbatches]
    refine covers_of_parts [] (by simpa using h.groups) (fun p hp => ?_) rfl
    rcases List.mem_append.mp hp with hp | hp
    · exact h.closed p hp
    · obtain rfl := List.mem_singleton.mp hp
      exact ⟨h.current ▸ hne, h.caps⟩

/-- The loop goes through where the sizes together are in range. -/
theorem Packed.foldlM : ∀ (rest : List (Text × FileEntry)) {before : List (Text × FileEntry)}
    {s : FetchPlan} {parts : List (List FetchGroup)} {last : List FetchGroup},
    Packed before s parts last → ((before ++ rest).map (·.2.size)).sum < 2 ^ 64 →
    ∃ s' parts' last', rest.foldlM (fun (s : FetchPlan) f => s.step o f.2) s = some s' ∧
      Packed (before ++ rest) s' parts' last'
  | [], before, s, parts, last, h, _ => ⟨s, parts, last, rfl, by simpa using h⟩
  | f :: rest, before, s, parts, last, h, hsum => by
    have hbytes : s.currentBytes ≤ (before.map (·.2.size)).sum := by
      rw [← groupSize_groupsFrom [] before, ← h.groups, groupSize_append, h.bytes]
      omega
    have hrange : s.InRange f.2 := by
      simp only [List.map_append, List.map_cons, List.sum_append, List.sum_cons] at hsum
      exact ⟨by omega, fun _ => by omega⟩
    obtain ⟨parts', last', h'⟩ := h.advance f
    rw [List.foldlM_cons, FetchPlan.step_of_inRange hrange]
    obtain ⟨s', parts', last', hs', h'⟩ := Packed.foldlM rest h' (by simpa using hsum)
    exact ⟨s', parts', last', hs', by simpa using h'⟩

end

/-- **The fetch plan covers the need list within its budget.** -/
theorem fetch_plan_covers {o : Overflow} {needed : List (Text × FileEntry)}
    (hsum : (needed.map (·.2.size)).sum < 2 ^ 64) :
    ∃ batches, planFetchBatches o needed = some batches ∧ FetchCovers needed batches := by
  have hstart : Packed [] {} [] [] :=
    ⟨fun h => by simp [chunksOf], rfl, rfl, rfl, rfl, nofun, nofun⟩
  obtain ⟨s, parts, last, hs, h⟩ := Packed.foldlM (o := o) needed hstart (by simpa using hsum)
  exact ⟨s.finish, by rw [planFetchBatches, hs]; rfl, by simpa using h.covers⟩

/-- A need list with a chunk used three times. -/
def sharedNeed : List (Text × FileEntry) :=
  let file (size : Nat) (chunks : List Text) : FileEntry :=
    { size, mode := 0o644, mtimeSecs := 0, mtimeNanos := 0, chunks }
  [("a".toList, file 3 ["x".toList, "x".toList]), ("b".toList, file 2 ["x".toList, "y".toList])]

/-- A chunk that two files share is planned once. -/
theorem fetch_plan_covers_shared :
    planFetchBatches .wraps sharedNeed = some [["x".toList, "y".toList]] ∧
      FetchCovers sharedNeed [["x".toList, "y".toList]] := by
  have hplan : planFetchBatches .wraps sharedNeed = some [["x".toList, "y".toList]] := by
    decide +kernel
  have hsum : (sharedNeed.map (·.2.size)).sum < 2 ^ 64 := by decide
  obtain ⟨batches, hbatches, hcovers⟩ := fetch_plan_covers (o := .wraps) hsum
  obtain rfl := Option.some.inj (hplan.symm.trans hbatches)
  exact ⟨hplan, hcovers⟩

/-! ## Sums out of range -/

/-- The distinct chunks of the first files. -/
def distinctChunks (needed : List (Text × FileEntry)) (k : Nat) : Nat :=
  (chunksOf (needed.take k)).eraseDups.length

/-- The sizes of the first files together. -/
def totalSize (needed : List (Text × FileEntry)) (k : Nat) : Nat :=
  ((needed.take k).map (·.2.size)).sum

/-- The files from the `i`-th on bring chunks, and with the `j`-th they are over a cap. -/
def OverCap (needed : List (Text × FileEntry)) (i j : Nat) : Prop :=
  distinctChunks needed i < distinctChunks needed j ∧
    (getManyMaxHashes < distinctChunks needed (j + 1) - distinctChunks needed i ∨
      getManyTargetBytes < totalSize needed (j + 1) - totalSize needed i)

instance (needed : List (Text × FileEntry)) (i j : Nat) : Decidable (OverCap needed i j) :=
  inferInstanceAs (Decidable (_ ∧ _))

/-- Since which file sizes are counted together when the `j`-th is looked at: the last one that went
over a cap. -/
def countedSince (needed : List (Text × FileEntry)) : Nat → Nat
  | 0 => 0
  | j + 1 => if OverCap needed (countedSince needed j) j then j else countedSince needed j

/-- The size of the `j`-th file is a `u64`, and so are the sizes counted together with it, where the
hash cap does not come first. -/
def SumInRange (needed : List (Text × FileEntry)) (j : Nat) : Prop :=
  totalSize needed (j + 1) - totalSize needed j < 2 ^ 64 ∧
    (distinctChunks needed j = distinctChunks needed (countedSince needed j) ∨
      distinctChunks needed (j + 1) - distinctChunks needed (countedSince needed j) ≤
          getManyMaxHashes →
        totalSize needed (j + 1) - totalSize needed (countedSince needed j) < 2 ^ 64)

/-- All sums are in range. -/
def SumsInRange (needed : List (Text × FileEntry)) : Prop :=
  ∀ j < needed.length, SumInRange needed j

/-- What the loop carries after the first files, in terms of these. -/
structure Counted (needed : List (Text × FileEntry)) (j : Nat) (s : FetchPlan) : Prop where
  planned : ∀ h, h ∈ s.planned ↔ h ∈ chunksOf (needed.take j)
  hashes : s.current.length + distinctChunks needed (countedSince needed j) = distinctChunks needed j
  bytes : s.currentBytes + totalSize needed (countedSince needed j) = totalSize needed j

section
variable {needed before rest : List (Text × FileEntry)} {f : Text × FileEntry} {s : FetchPlan}
  {j : Nat}

theorem distinctChunks_succ (h : needed[j]? = some f) : distinctChunks needed (j + 1) =
    distinctChunks needed j + (newChunks (needed.take j) f.2).length := by
  have htake : needed.take (j + 1) = needed.take j ++ [f] := by simp [List.take_add_one, h]
  rw [distinctChunks, htake, eraseDups_chunksOf_append, List.length_append]
  rfl

theorem totalSize_succ (h : needed[j]? = some f) :
    totalSize needed (j + 1) = totalSize needed j + f.2.size := by
  simp [totalSize, List.take_add_one, h]

/-- The new chunks of the next file, as the loop computes them. -/
theorem Counted.takeNew (h : Counted needed j s) (f : Text × FileEntry) :
    (takeNew s.planned f.2.chunks).1 = newChunks (needed.take j) f.2 := by
  rw [takeNew_fst, newChunks, removeAll_congr h.planned]

/-- The step closes the batch when the files are over a cap. -/
theorem Counted.closes_iff (h : Counted needed j s) (hf : needed[j]? = some f) :
    s.Closes f.2.size (newChunks (needed.take j) f.2).length ↔
      OverCap needed (countedSince needed j) j := by
  have hhashes := h.hashes
  have hbytes := h.bytes
  rw [FetchPlan.Closes, OverCap, distinctChunks_succ hf, totalSize_succ hf,
    ← List.length_pos_iff_ne_nil]
  omega

/-- The next file keeps the count. -/
theorem Counted.advance (h : Counted needed j s) (hf : needed[j]? = some f) :
    Counted needed (j + 1) (s.advance f.2) := by
  have hhashes := h.hashes
  have hbytes := h.bytes
  have hplanned : ∀ x, x ∈ (Pear.takeNew s.planned f.2.chunks).2 ↔
      x ∈ chunksOf (needed.take (j + 1)) := by
    intro x
    rw [mem_takeNew_snd, h.planned]
    simp [chunksOf, List.take_add_one, hf]
  by_cases hcloses : s.Closes f.2.size (newChunks (needed.take j) f.2).length
  · have hsince : countedSince needed (j + 1) = j := if_pos ((h.closes_iff hf).mp hcloses)
    simp only [FetchPlan.advance, h.takeNew, hcloses, if_true]
    refine ⟨hplanned, ?_, ?_⟩
    · rw [hsince, distinctChunks_succ hf, Nat.add_comm]
    · rw [hsince, totalSize_succ hf, Nat.add_comm]
  · have hsince : countedSince needed (j + 1) = countedSince needed j :=
      if_neg fun hover => hcloses ((h.closes_iff hf).mpr hover)
    simp only [FetchPlan.advance, h.takeNew, hcloses, if_false]
    refine ⟨hplanned, ?_, ?_⟩
    · rw [hsince, distinctChunks_succ hf, List.length_append]
      omega
    · rw [hsince, totalSize_succ hf]
      dsimp only
      omega

/-- The step's sums are in range when those of the counted files are. -/
theorem Counted.inRange_iff (h : Counted needed j s) (hf : needed[j]? = some f) :
    s.InRange f.2 ↔ SumInRange needed j := by
  have hhashes := h.hashes
  have hbytes := h.bytes
  rw [FetchPlan.InRange, SumInRange, h.takeNew, distinctChunks_succ hf, totalSize_succ hf,
    ← List.length_eq_zero_iff]
  omega

/-- The loop goes through from here when the sums are in range from here on. -/
theorem Counted.foldlM_isSome : ∀ (rest : List (Text × FileEntry)) {j : Nat} {s : FetchPlan},
    needed.drop j = rest → Counted needed j s →
    ((rest.foldlM (fun (s : FetchPlan) f => s.step .panics f.2) s).isSome ↔
      ∀ k, j ≤ k → k < needed.length → SumInRange needed k)
  | [], j, s, hdrop, _ => by
    have hlength := List.drop_eq_nil_iff.mp hdrop
    exact ⟨fun _ k hk hlt => absurd hlt (by omega), fun _ => rfl⟩
  | f :: rest, j, s, hdrop, h => by
    have hf : needed[j]? = some f := by
      rw [← List.head?_drop, hdrop]
      rfl
    have hlt : j < needed.length := (List.getElem?_eq_some_iff.mp hf).1
    have hrest : needed.drop (j + 1) = rest := by
      rw [← List.drop_drop, hdrop]
      rfl
    rw [List.foldlM_cons]
    by_cases hrange : s.InRange f.2
    · rw [FetchPlan.step_of_inRange hrange]
      refine (Counted.foldlM_isSome rest hrest (h.advance hf)).trans ⟨fun hall k hk hklt => ?_,
        fun hall k hk => hall k (by omega)⟩
      rcases Nat.eq_or_lt_of_le hk with rfl | hk
      · exact (h.inRange_iff hf).mp hrange
      · exact hall k hk hklt
    · rw [FetchPlan.step_of_not_inRange hrange]
      refine ⟨nofun, fun hall => absurd ((h.inRange_iff hf).mpr (hall j (Nat.le_refl j) hlt)) hrange⟩

end

/-- No addition of a plan overflows when the sums are in range, and only then. -/
theorem planFetchBatches_isSome_iff (needed : List (Text × FileEntry)) :
    (planFetchBatches .panics needed).isSome ↔ SumsInRange needed := by
  have hstart : Counted needed 0 {} := ⟨fun h => by simp [chunksOf], Nat.zero_add _, Nat.zero_add _⟩
  rw [planFetchBatches, Option.isSome_map, Counted.foldlM_isSome needed rfl hstart]
  exact ⟨fun h j hj => h j (Nat.zero_le j) hj, fun h j _ hj => h j hj⟩

/-- **The additions of a pull's plan and of a converge's plan stay below `2 ^ 64` exactly when the
sizes counted together do.** -/
theorem fetch_sums_in_range_iff (recorded : FileMap) (head base localManifest remote : Manifest)
    (device stamp : Text) :
    ((planFetchBatches .panics (pullNeeded recorded head.files)).isSome ↔
      SumsInRange (pullNeeded recorded head.files)) ∧
    let out := merge base localManifest remote device stamp
    ((planFetchBatches .panics (convergeNeeded out)).isSome ↔ SumsInRange (convergeNeeded out)) :=
  ⟨planFetchBatches_isSome_iff _, planFetchBatches_isSome_iff _⟩

/-- A head of two files of `2 ^ 63` bytes each, if its sizes are believed. -/
def hugeHead : Manifest :=
  let huge (c : Char) : FileEntry :=
    { size := 2 ^ 63, mode := 0o644, mtimeSecs := 0, mtimeNanos := 0, chunks := [.replicate 64 c] }
  { Manifest.new "w".toList with
    files := .ofList [("a".toList, huge 'a'), ("b".toList, huge 'b')] compare }

/-- **Two huge sizes overflow the byte count**, in a pull and in a converge: with overflow checks the
plan panics, and without them both files are in one batch. -/
theorem huge_sizes_overflow :
    let out := merge (Manifest.new "w".toList) (Manifest.new "w".toList) hugeHead [] []
    validate hugeHead = .ok () ∧
    planFetchBatches .panics (pullNeeded ∅ hugeHead.files) = none ∧
    planFetchBatches .panics (convergeNeeded out) = none ∧
    planFetchBatches .wraps (pullNeeded ∅ hugeHead.files) =
      some [[.replicate 64 'a', .replicate 64 'b']] := by
  decide +kernel

end Pear
