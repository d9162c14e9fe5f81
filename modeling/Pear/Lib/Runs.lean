import Mathlib

/-!
# Runs of a guarded step function

A system is a step function `step s e`, which is `some s'` when the event `e` is enabled in the
state `s`. `Run` is a finite run whose every step meets a condition on the state before it and the
event; with the condition `fun _ _ => True` it is any run. An invariant that each such step keeps
holds at the end of a run (`Run.invariant`), and `replay` executes a list of events, so a concrete
run can be evaluated (`Run.of_replay`).
-/

namespace Pear.Lib

variable {σ ε : Type} {step : σ → ε → Option σ} {C : σ → ε → Prop}

/-- A run from a state through enabled events, each of which meets the condition. -/
inductive Run (step : σ → ε → Option σ) (C : σ → ε → Prop) : σ → List ε → σ → Prop
  | nil (s : σ) : Run step C s [] s
  | cons {s s' t : σ} {e : ε} {es : List ε} (hc : C s e) (hs : step s e = some s')
      (h : Run step C s' es t) : Run step C s (e :: es) t

/-- **What every step keeps, every run keeps.** -/
theorem Run.invariant {I : σ → Prop} {s t : σ} {es : List ε}
    (hstep : ∀ s e s', I s → C s e → step s e = some s' → I s')
    (h : Run step C s es t) (hi : I s) : I t := by
  induction h with
  | nil => exact hi
  | cons hc hs _ ih => exact ih (hstep _ _ _ hi hc hs)

/-- A run under a condition is a run under a weaker one. -/
theorem Run.mono {C' : σ → ε → Prop} {s t : σ} {es : List ε} (hC : ∀ s e, C s e → C' s e)
    (h : Run step C s es t) : Run step C' s es t := by
  induction h with
  | nil => exact .nil _
  | cons hc hs _ ih => exact .cons (hC _ _ hc) hs ih

/-- A run under each of two conditions is a run under both, as a step has one outcome. -/
theorem Run.and {C' : σ → ε → Prop} {s t : σ} {es : List ε} (h : Run step C s es t)
    (h' : Run step C' s es t) : Run step (fun s e => C s e ∧ C' s e) s es t := by
  induction h with
  | nil => exact .nil _
  | cons hc hs _ ih =>
    obtain _ | ⟨hc', hs', hrest⟩ := h'
    obtain rfl := Option.some.inj (hs.symm.trans hs')
    exact .cons ⟨hc, hc'⟩ hs (ih hrest)

/-- Two conditions that agree on the steps of a run, given what the run keeps, hold of it together. -/
theorem Run.congr {C' C₀ : σ → ε → Prop} {I : σ → Prop} {s t : σ} {es : List ε}
    (hstep : ∀ s e s', I s → C₀ s e → step s e = some s' → I s')
    (hC : ∀ s e s', I s → C₀ s e → step s e = some s' → (C s e ↔ C' s e))
    (h : Run step C₀ s es t) (hi : I s) : Run step C s es t ↔ Run step C' s es t := by
  induction h with
  | nil => exact ⟨fun _ => .nil _, fun _ => .nil _⟩
  | cons hc hs _ ih =>
    have ih := ih (hstep _ _ _ hi hc hs)
    constructor
    · rintro (_ | ⟨hc', hs', hrest⟩)
      rw [hs] at hs'
      cases hs'
      exact .cons ((hC _ _ _ hi hc hs).mp hc') hs (ih.mp hrest)
    · rintro (_ | ⟨hc', hs', hrest⟩)
      rw [hs] at hs'
      cases hs'
      exact .cons ((hC _ _ _ hi hc hs).mpr hc') hs (ih.mpr hrest)

/-- Execute a list of events; `none` when one of them is disabled. -/
def replay (step : σ → ε → Option σ) : σ → List ε → Option σ
  | s, [] => some s
  | s, e :: es => (step s e).bind fun s' => replay step s' es

/-- Two lists of events that execute one after the other. -/
theorem replay_append {es es' : List ε} {s t u : σ} (h : replay step s es = some t)
    (h' : replay step t es' = some u) : replay step s (es ++ es') = some u := by
  induction es generalizing s with
  | nil =>
    cases h
    exact h'
  | cons e es ih =>
    obtain ⟨s', hs, ht⟩ := Option.bind_eq_some_iff.mp h
    exact Option.bind_eq_some_iff.mpr ⟨s', hs, ih ht⟩

/-- A list of events that executes is a run, under any condition its events meet in every state. -/
theorem Run.of_replay : ∀ {es : List ε} {s t : σ}, (∀ s, ∀ e ∈ es, C s e) →
    replay step s es = some t → Run step C s es t
  | [], s, t, _, h => by
    cases h
    exact .nil _
  | e :: es, s, t, hc, h => by
    obtain ⟨s', hs, ht⟩ := Option.bind_eq_some_iff.mp h
    exact .cons (hc s e List.mem_cons_self) hs
      (Run.of_replay (fun s e he => hc s e (List.mem_cons_of_mem _ he)) ht)

/-- A list of events that executes where a check passes is a run under what the check implies. -/
theorem Run.of_replay_if {ok : σ → ε → Bool} (hok : ∀ s e, ok s e = true → C s e) :
    ∀ {es : List ε} {s t : σ},
      replay (fun s e => if ok s e then step s e else none) s es = some t → Run step C s es t
  | [], s, t, h => by
    cases h
    exact .nil _
  | e :: es, s, t, h => by
    obtain ⟨s', hs, ht⟩ := Option.bind_eq_some_iff.mp h
    dsimp only at hs
    split at hs
    · rename_i he
      exact .cons (hok s e he) hs (Run.of_replay_if hok ht)
    · cases hs

end Pear.Lib
