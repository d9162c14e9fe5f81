import Mathlib

/-!
# Tables kept in memory and on disk

A process works on a table in memory and stores whole copies of it. A change of one key may or may
not be stored, may or may not be acknowledged (only when it was stored), and the process may be killed
by it; a restarted process goes on with the stored copy. `candidates` is what whoever made the changes
has to reckon with at a key: the value of the last acknowledged change, and those of later ones that
were not acknowledged. Memory and disk never hold anything else (`Durable.Within.replay`), so after an
acknowledged change with no other since they hold just its value (`candidates_of_acked`).
-/

namespace Pear.Lib

variable {K V : Type} [DecidableEq K]

/-- A table in memory, while there is a process, and its stored copy. -/
structure Durable (K V : Type) where
  memory : Option (K → Option V)
  disk : K → Option V

/-- A change of one key. -/
structure Change (K V : Type) where
  key : K
  value : Option V
  stored : Bool
  /-- Whoever made it has been told that it is stored. -/
  acked : Bool
  /-- The process outlives it. -/
  alive : Bool
deriving DecidableEq

/-- What happens to the tables. -/
inductive DurableEvent (K V : Type) where
  | change (c : Change K V)
  | crash
  | recover
deriving DecidableEq

/-- One step. Only a change that was stored is acknowledged. -/
def Durable.step (s : Durable K V) : DurableEvent K V → Option (Durable K V)
  | .change c =>
    if c.acked && !c.stored then none
    else s.memory.map fun m =>
      { memory := if c.alive then some (Function.update m c.key c.value) else none
        disk := if c.stored then Function.update m c.key c.value else s.disk }
  | .crash => s.memory.map fun _ => { s with memory := none }
  | .recover =>
    match s.memory with
    | some _ => none
    | none => some { s with memory := some s.disk }

/-- A run of events. -/
def Durable.replay : Durable K V → List (DurableEvent K V) → Option (Durable K V)
  | s, [] => some s
  | s, e :: es => (s.step e).bind fun s' => s'.replay es

/-- A run is the run of its events in two parts. -/
theorem Durable.replay_append (s : Durable K V) (es es' : List (DurableEvent K V)) :
    s.replay (es ++ es') = (s.replay es).bind fun s' => s'.replay es' := by
  induction es generalizing s with
  | nil => rfl
  | cons e es ih =>
    rw [List.cons_append, Durable.replay, Durable.replay, Option.bind_assoc]
    simp only [ih]

/-- What an event makes of the values to reckon with at a key. -/
def candidate (k : K) (values : List (Option V)) : DurableEvent K V → List (Option V)
  | .change c =>
    if c.key = k then (if c.acked then [c.value] else c.value :: values) else values
  | _ => values

/-- The values to reckon with at a key after some events. -/
def candidates (k : K) (values : List (Option V)) (es : List (DurableEvent K V)) : List (Option V) :=
  es.foldl (candidate k) values

/-- Memory and disk hold values to reckon with. -/
structure Durable.Within (values : K → List (Option V)) (s : Durable K V) : Prop where
  disk : ∀ k, s.disk k ∈ values k
  memory : ∀ m, s.memory = some m → ∀ k, m k ∈ values k

/-- **A step leaves memory and disk within the candidates.** -/
theorem Durable.Within.step {values : K → List (Option V)} {s s' : Durable K V} {e : DurableEvent K V}
    (h : s.Within values) (hs : s.step e = some s') :
    s'.Within fun k => candidate k (values k) e := by
  cases e with
  | change c =>
    rw [Durable.step] at hs
    split at hs
    · cases hs
    rename_i hack
    obtain ⟨m, hm, rfl⟩ := Option.map_eq_some_iff.mp hs
    have hupdate : ∀ k, Function.update m c.key c.value k ∈ candidate k (values k) (.change c) := by
      intro k
      by_cases hk : c.key = k
      · subst hk
        rw [Function.update_self, candidate, if_pos rfl]
        split <;> exact List.mem_cons_self
      · rw [Function.update_of_ne (Ne.symm hk), candidate, if_neg hk]
        exact h.memory m hm k
    refine ⟨fun k => ?_, fun m' hm' k => ?_⟩
    · dsimp only
      by_cases hstored : c.stored = true
      · rw [if_pos hstored]
        exact hupdate k
      · -- What is not stored is not acknowledged, so the old value still counts.
        have hacked : ¬ c.acked = true := fun ha => hack (by simp [ha, hstored])
        rw [if_neg hstored, candidate, if_neg hacked]
        split
        · exact List.mem_cons_of_mem _ (h.disk k)
        · exact h.disk k
    · dsimp only at hm'
      split at hm'
      · cases hm'
        exact hupdate k
      · cases hm'
  | crash =>
    obtain ⟨m, hm, rfl⟩ := Option.map_eq_some_iff.mp hs
    exact ⟨h.disk, fun m' hm' => by cases hm'⟩
  | recover =>
    unfold Durable.step at hs
    cases hm : s.memory with
    | some m =>
      rw [hm] at hs
      cases hs
    | none =>
      rw [hm] at hs
      cases hs
      refine ⟨h.disk, fun m' hm' => ?_⟩
      cases hm'
      exact h.disk

/-- **A run leaves memory and disk within the candidates.** -/
theorem Durable.Within.replay {values : K → List (Option V)} {s s' : Durable K V}
    {es : List (DurableEvent K V)} (h : s.Within values) (hs : s.replay es = some s') :
    s'.Within fun k => candidates k (values k) es := by
  induction es generalizing values s with
  | nil =>
    cases hs
    exact h
  | cons e es ih =>
    obtain ⟨s₁, h₁, hs⟩ := Option.bind_eq_some_iff.mp hs
    exact ih (h.step h₁) hs

/-- Events that change nothing at a key leave its candidates. -/
theorem candidates_of_ne {k : K} {values : List (Option V)} {es : List (DurableEvent K V)}
    (h : ∀ c : Change K V, .change c ∈ es → c.key ≠ k) : candidates k values es = values := by
  induction es with
  | nil => rfl
  | cons e es ih =>
    have he : candidate k values e = values := by
      cases e with
      | change c => exact if_neg (h c List.mem_cons_self)
      | crash | recover => rfl
    rw [candidates, List.foldl_cons, he]
    exact ih fun c hc => h c (List.mem_cons_of_mem _ hc)

/-- **After an acknowledged change, and until the next one of its key, there is one candidate.** -/
theorem candidates_of_acked {k : K} {values : List (Option V)} {es es' : List (DurableEvent K V)}
    {c : Change K V} (hkey : c.key = k) (hacked : c.acked = true)
    (h : ∀ c : Change K V, .change c ∈ es' → c.key ≠ k) :
    candidates k values (es ++ .change c :: es') = [c.value] := by
  rw [candidates, List.foldl_append, List.foldl_cons, candidate, if_pos hkey, if_pos hacked]
  exact candidates_of_ne h

end Pear.Lib
