import Pear.Lib.Runs

/-!
# Programs that call a fallible system

A `Prog` is a tree of calls: it ends with a value or an error, or calls an operation and goes on
with the answer. A `Machine` executes one call at a time on a world; a tick may also let the call
fail, with whatever part of its effect the machine gives a failed call, or let somebody else act on
the world between two calls. So the runs of a program are the runs of a guarded step function, with
a stop or a failure at every point among them.

Under any answers, a program is safe when its calls meet a condition and its value another
(`Prog.Safe`); `Prog.along` follows one way of answering.

`wp` is the weakest precondition of a program against a contract: what may be assumed of the world
at a call (`assume`), what others may do between calls (`rely`), and what every call, failed or not,
must do (`guarantee`). It is defined by recursion on the program, so a run of the machine keeps it
(`wp_run`), and it obeys the rules of a program logic: sequencing (`wp_bind`), loops (`wp_forM`),
weaker postconditions (`wp_mono`), and passing from what a call guarantees to an invariant of the
world and a stronger guarantee (`wp_invariant`). A program whose calls are programs of another system
does there what it does here (`wp_interp`), and an error that is caught here is raised again there
(`Prog.interp_attempt`). `wpe` says something of how a program ends in an error too; it is `wp` of the
program that catches its error, for programs that run alone.
-/

namespace Pear.Lib

/-- A program over operations `Op` that are answered in `Ret`. -/
inductive Prog (Op : Type) (Ret : Op → Type) (ε α : Type) : Type where
  | done (a : α)
  | fail (e : ε)
  | call (op : Op) (k : Ret op → Prog Op Ret ε α)

section
variable {Op : Type} {Ret : Op → Type} {ε α β : Type}

/-- Sequencing: an error ends the program. -/
def Prog.bind (x : Prog Op Ret ε α) (f : α → Prog Op Ret ε β) : Prog Op Ret ε β :=
  match x with
  | .done a => f a
  | .fail e => .fail e
  | .call op k => .call op fun r => (k r).bind f

instance : Monad (Prog Op Ret ε) where
  pure := .done
  bind := .bind

@[simp] theorem Prog.pure_eq (a : α) : (pure a : Prog Op Ret ε α) = .done a := rfl

@[simp] theorem Prog.done_bind (a : α) (f : α → Prog Op Ret ε β) :
    ((.done a : Prog Op Ret ε α) >>= f) = f a := rfl

@[simp] theorem Prog.fail_bind (e : ε) (f : α → Prog Op Ret ε β) :
    ((.fail e : Prog Op Ret ε α) >>= f) = .fail e := rfl

@[simp] theorem Prog.call_bind (op : Op) (k : Ret op → Prog Op Ret ε α) (f : α → Prog Op Ret ε β) :
    ((.call op k : Prog Op Ret ε α) >>= f) = .call op fun r => k r >>= f := rfl

theorem Prog.bind_assoc {γ : Type} (x : Prog Op Ret ε α) (f : α → Prog Op Ret ε β)
    (g : β → Prog Op Ret ε γ) : x >>= f >>= g = x >>= fun a => f a >>= g := by
  induction x with
  | done a => rfl
  | fail e => rfl
  | call op k ih => exact congrArg (Prog.call op) (funext ih)

theorem Prog.bind_done (x : Prog Op Ret ε α) : x >>= .done = x := by
  induction x with
  | done a => rfl
  | fail e => rfl
  | call op k ih => exact congrArg (Prog.call op) (funext ih)

/-- Catch the error of a program. -/
def Prog.attempt {ε' : Type} : Prog Op Ret ε α → Prog Op Ret ε' (Except ε α)
  | .done a => .done (.ok a)
  | .fail e => .done (.error e)
  | .call op k => .call op fun r => (k r).attempt

/-- Catching the error of a sequence. -/
theorem Prog.attempt_bind {ε' : Type} (x : Prog Op Ret ε α) (f : α → Prog Op Ret ε β) :
    ((x >>= f).attempt : Prog Op Ret ε' (Except ε β)) = x.attempt >>= fun
      | .ok a => (f a).attempt
      | .error e => .done (.error e) := by
  induction x with
  | done a => rfl
  | fail e => rfl
  | call op k ih => exact congrArg (Prog.call op) (funext ih)

/-- Run a program where every call is itself a program of another system. -/
def Prog.interp {Op' : Type} {Ret' : Op' → Type} (h : (op : Op) → Prog Op' Ret' ε (Ret op)) :
    Prog Op Ret ε α → Prog Op' Ret' ε α
  | .done a => .done a
  | .fail e => .fail e
  | .call op k => h op >>= fun r => (k r).interp h

/-- A program whose calls are the calls themselves. -/
theorem Prog.interp_call (p : Prog Op Ret ε α) : (p.interp fun op => .call op .done) = p := by
  induction p with
  | done a => rfl
  | fail e => rfl
  | call op k ih => exact congrArg (Prog.call op) (funext ih)

/-- An error that is caught and raised again. -/
theorem Prog.interp_attempt {Op' : Type} {Ret' : Op' → Type}
    (h : (op : Op) → Prog Op' Ret' ε (Ret op)) (p : Prog Op Ret ε α) :
    p.interp h = p.attempt.interp h >>= fun
      | .ok a => .done a
      | .error e => .fail e := by
  induction p with
  | done a => rfl
  | fail e => rfl
  | call op k ih =>
    rw [interp, funext ih, ← bind_assoc]
    rfl

end

/-! ## Programs under any answers -/

section
variable {Op : Type} {Ret : Op → Type} {ε α β : Type}

/-- Whatever the answers are, the calls meet `P` and the value meets `Q`. -/
def Prog.Safe (P : Op → Prop) (Q : α → Prop) : Prog Op Ret ε α → Prop
  | .done a => Q a
  | .fail _ => True
  | .call op k => P op ∧ ∀ r, (k r).Safe P Q

/-- A run: the calls with their answers, whatever these are, and how it ends. -/
inductive Prog.Trace : Prog Op Ret ε α → List (Sigma Ret) → Except ε α → Prop
  | done (a : α) : Trace (.done a) [] (.ok a)
  | fail (e : ε) : Trace (.fail e) [] (.error e)
  | call {op : Op} {k : Ret op → Prog Op Ret ε α} {r : Ret op} {t : List (Sigma Ret)}
    {res : Except ε α} (h : Trace (k r) t res) : Trace (.call op k) (⟨op, r⟩ :: t) res

/-- The calls a program makes when each is answered as `ans` says, and how it ends. -/
def Prog.along (ans : (op : Op) → Ret op) : Prog Op Ret ε α → List Op × Except ε α
  | .done a => ([], .ok a)
  | .fail e => ([], .error e)
  | .call op k => (op :: ((k (ans op)).along ans).1, ((k (ans op)).along ans).2)

variable {P : Op → Prop} {Q Q' : α → Prop} {p : Prog Op Ret ε α} {f : α → Prog Op Ret ε β}

/-- A weaker postcondition. -/
theorem Prog.Safe.mono (h : p.Safe P Q) (hQ : ∀ a, Q a → Q' a) : p.Safe P Q' := by
  induction p with
  | done a => exact hQ a h
  | fail e => trivial
  | call op k ih => exact ⟨h.1, fun r => ih r (h.2 r)⟩

/-- Sequencing. -/
theorem Prog.Safe.bind {R : β → Prop} (h : p.Safe P fun a => (f a).Safe P R) :
    (p >>= f).Safe P R := by
  induction p with
  | done a => exact h
  | fail e => trivial
  | call op k ih => exact ⟨h.1, fun r => ih r (h.2 r)⟩

theorem Prog.safe_true (p : Prog Op Ret ε α) : p.Safe (fun _ => True) fun _ => True := by
  induction p with
  | done a | fail e => trivial
  | call op k ih => exact ⟨trivial, ih⟩

/-- A safe program ends as it should. -/
theorem Prog.Safe.of_trace {t : List (Sigma Ret)} {a : α} (h : p.Safe P Q) (run : p.Trace t (.ok a)) :
    Q a := by
  induction p generalizing t with
  | done b =>
    cases run
    exact h
  | fail e => cases run
  | call op k ih =>
    cases run with
    | call hrest => exact ih _ (h.2 _) hrest

/-- A loop that carries a value. -/
theorem Prog.Safe.foldlM {γ σ : Type} {f : σ → γ → Prog Op Ret ε σ}
    (h : ∀ s x, (f s x).Safe P fun _ => True) :
    ∀ {xs : List γ} {s : σ}, (xs.foldlM f s).Safe P fun _ => True
  | [], _ => trivial
  | x :: _, s => .bind (.mono (h s x) fun _ _ => Prog.Safe.foldlM h)

/-- A loop. -/
theorem Prog.Safe.forM {γ : Type} {f : γ → Prog Op Ret ε PUnit}
    (h : ∀ x, (f x).Safe P fun _ => True) : ∀ xs : List γ, (xs.forM f).Safe P fun _ => True
  | [] => trivial
  | x :: xs => .bind ((h x).mono fun _ _ => Prog.Safe.forM h xs)

/-- The calls of a safe program meet the condition. -/
theorem Prog.Safe.along {ans : (op : Op) → Ret op} (h : p.Safe P Q) :
    ∀ op ∈ (p.along ans).1, P op := by
  induction p with
  | done a | fail e => exact fun op hop => nomatch hop
  | call op k ih =>
    intro op' hop
    rcases List.mem_cons.mp hop with rfl | hop
    · exact h.1
    · exact ih _ (h.2 _) op' hop

/-- The calls of a sequence. -/
theorem Prog.along_bind {ans : (op : Op) → Ret op} {ops : List Op} {a : α}
    (h : p.along ans = (ops, .ok a)) :
    (p >>= f).along ans = (ops ++ ((f a).along ans).1, ((f a).along ans).2) := by
  induction p generalizing ops with
  | done b =>
    cases h
    rfl
  | fail e => cases h
  | call op k ih =>
    obtain ⟨rfl, hval⟩ := Prod.mk.inj h
    rw [Prog.call_bind, Prog.along, ih _ (Prod.ext rfl hval)]
    rfl

end

/-! ## Machines -/

/-- How a world answers calls: `exec` does them, `fault` lets them fail in one of the ways `F`, and
`act` is what others can do. -/
structure Machine (W Op : Type) (Ret : Op → Type) (F A : Type) where
  exec : (op : Op) → W → Ret op × W
  fault : (op : Op) → F → W → Ret op × W
  act : A → W → Option W

/-- What happens next: the program's call is done, it fails, or somebody else acts. -/
inductive Tick (F A : Type) where
  | go
  | fault (f : F)
  | act (a : A)

section
variable {W Op : Type} {Ret : Op → Type} {F A ε α : Type} (M : Machine W Op Ret F A)

/-- One step of a program on a world. -/
def Machine.step : W × Prog Op Ret ε α → Tick F A → Option (W × Prog Op Ret ε α)
  | (w, .call op k), .go => some ((M.exec op w).2, k (M.exec op w).1)
  | (w, .call op k), .fault f => some ((M.fault op f w).2, k (M.fault op f w).1)
  | (w, p), .act a => (M.act a w).map (·, p)
  | (_, .done _), _ => none
  | (_, .fail _), _ => none

/-- The ways a call can come out. -/
inductive Outcome (op : Op) (w : W) : Ret op × W → Prop
  | exec : Outcome op w (M.exec op w)
  | fault (f : F) : Outcome op w (M.fault op f w)

end

/-! ## Weakest preconditions -/

/-- What a program may assume and must do at its calls, and what others do between them. -/
structure Contract (W Op : Type) where
  assume : Op → W → Prop
  rely : W → W → Prop
  guarantee : Op → W → W → Prop
  rely_refl : ∀ w, rely w w
  rely_trans : ∀ {w w' w''}, rely w w' → rely w' w'' → rely w w''

/-- The contract of a program that runs alone: nothing is assumed, and nobody else acts. -/
def Contract.alone {W Op : Type} (guarantee : Op → W → W → Prop) : Contract W Op where
  assume _ _ := True
  rely := Eq
  guarantee := guarantee
  rely_refl _ := rfl
  rely_trans := Eq.trans

section
variable {W Op : Type} {Ret : Op → Type} {F A ε α β : Type} (M : Machine W Op Ret F A)
  (C : Contract W Op)

/-- The weakest precondition: every call the program comes to meets the guarantee, and its value
meets the postcondition. -/
def wp (Q : α → W → Prop) : Prog Op Ret ε α → W → Prop
  | .done a, w => ∀ w', C.rely w w' → Q a w'
  | .fail _, _ => True
  | .call op k, w => ∀ w', C.rely w w' → C.assume op w' → ∀ out, Outcome M op w' out →
      C.guarantee op w' out.2 ∧ wp Q (k out.1) out.2

variable {M C} {Q Q' : α → W → Prop} {p : Prog Op Ret ε α} {w w' : W}

/-- Others leave a weakest precondition alone. -/
theorem wp_rely (h : wp M C Q p w) (hr : C.rely w w') : wp M C Q p w' := by
  cases p with
  | done a => exact fun w'' hr' => h w'' (C.rely_trans hr hr')
  | fail e => trivial
  | call op k => exact fun w'' hr' => h w'' (C.rely_trans hr hr')

/-- A weaker postcondition. -/
theorem wp_mono (h : wp M C Q p w) (hQ : ∀ a w, Q a w → Q' a w) : wp M C Q' p w := by
  induction p generalizing w with
  | done a => exact fun w' hr => hQ a w' (h w' hr)
  | fail e => trivial
  | call op k ih =>
    intro w' hr ha out hout
    obtain ⟨hg, hk⟩ := h w' hr ha out hout
    exact ⟨hg, ih out.1 hk⟩

/-- What a program ends with whatever the answers are, it ends with here. -/
theorem wp_of_safe {P : Op → Prop} {R : α → Prop} (h : wp M C Q p w) (hs : p.Safe P R) :
    wp M C (fun a w => Q a w ∧ R a) p w := by
  induction p generalizing w with
  | done a => exact fun w' hr => ⟨h w' hr, hs⟩
  | fail e => trivial
  | call op k ih =>
    intro w' hr ha out hout
    obtain ⟨hg, hk⟩ := h w' hr ha out hout
    exact ⟨hg, ih out.1 hk (hs.2 out.1)⟩

/-- One call, whose answer and world meet `Q`. -/
def wpCall (M : Machine W Op Ret F A) (C : Contract W Op) (op : Op) (Q : Ret op → W → Prop)
    (w : W) : Prop :=
  ∀ w', C.rely w w' → C.assume op w' → ∀ out, Outcome M op w' out →
    C.guarantee op w' out.2 ∧ Q out.1 out.2

/-- Sequencing. -/
theorem wp_bind {f : α → Prog Op Ret ε β} {R : β → W → Prop}
    (h : wp M C (fun a w => wp M C R (f a) w) p w) : wp M C R (p >>= f) w := by
  induction p generalizing w with
  | done a => exact h w (C.rely_refl w)
  | fail e => trivial
  | call op k ih =>
    intro w' hr ha out hout
    obtain ⟨hg, hk⟩ := h w' hr ha out hout
    exact ⟨hg, ih out.1 hk⟩

/-- A loop, by what holds while `xs` remain. -/
theorem wp_forM {γ : Type} {f : γ → Prog Op Ret ε PUnit} {I : List γ → W → Prop}
    (hI : ∀ xs w w', I xs w → C.rely w w' → I xs w')
    (h : ∀ x xs w, I (x :: xs) w → wp M C (fun _ => I xs) (f x) w) :
    ∀ {xs : List γ} {w : W}, I xs w → wp M C (fun _ => I []) (forM xs f) w
  | [], w, hi => fun w' hr => hI [] w w' hi hr
  | x :: xs, w, hi => wp_bind (wp_mono (h x xs w hi) fun _ _ hi => wp_forM hI h hi)

/-- A loop that carries a value. -/
theorem wp_foldlM {γ σ : Type} {f : σ → γ → Prog Op Ret ε σ} {I : List γ → σ → W → Prop}
    (hI : ∀ xs s w w', I xs s w → C.rely w w' → I xs s w')
    (h : ∀ x xs s w, I (x :: xs) s w → wp M C (I xs) (f s x) w) :
    ∀ {xs : List γ} {s : σ} {w : W}, I xs s w → wp M C (I []) (xs.foldlM f s) w
  | [], s, w, hi => fun w' hr => hI [] s w w' hi hr
  | x :: xs, s, w, hi => wp_bind (wp_mono (h x xs s w hi) fun _ _ hi => wp_foldlM hI h hi)

/-- **A program whose calls are programs of another system** does there what it does on a machine
whose outcomes its calls have. -/
theorem wp_interp {W' Op' F' A' : Type} {Ret' : Op' → Type} {M' : Machine W' Op' Ret' F' A'}
    {G : Op' → W' → W' → Prop} {h : (op : Op) → Prog Op' Ret' ε (Ret op)} (f : W' → W)
    {I : W' → Prop} (hassume : ∀ op w, C.assume op w)
    (hcall : ∀ op w, I w → wp M' (.alone G) (fun r w' => Outcome M op (f w) (r, f w') ∧ I w') (h op) w)
    {w : W'} (hp : wp M C Q p (f w)) (hi : I w) :
    wp M' (.alone G) (fun a w => Q a (f w) ∧ I w) (p.interp h) w := by
  induction p generalizing w with
  | done a =>
    rintro _ rfl
    exact ⟨hp _ (C.rely_refl _), hi⟩
  | fail e => trivial
  | call op k ih =>
    refine wp_bind (wp_mono (hcall op w hi) fun r w' hr => ?_)
    exact ih r (hp _ (C.rely_refl _) (hassume op _) _ hr.1).2 hr.2

/-- **From guarantees to an invariant**, and from a world to one that has more in it: what every call
keeps, given what it guarantees, holds at the end too, and a call may guarantee what the invariant
adds. -/
theorem wp_lift {W' F' A' : Type} {M' : Machine W' Op Ret F' A'} {C' : Contract W' Op} (f : W' → W)
    {I : W' → Prop}
    (hout : ∀ op w out, Outcome M' op w out → Outcome M op (f w) (out.1, f out.2))
    (hassume : ∀ op w, I w → C'.assume op w → C.assume op (f w))
    (hrely : ∀ w w', C'.rely w w' → I w → C.rely (f w) (f w') ∧ I w')
    (hcall : ∀ op w out, I w → C'.assume op w → Outcome M' op w out →
      C.guarantee op (f w) (f out.2) → I out.2 ∧ C'.guarantee op w out.2)
    {w : W'} (h : wp M C Q p (f w)) (hi : I w) : wp M' C' (fun a w => Q a (f w) ∧ I w) p w := by
  induction p generalizing w with
  | done a =>
    intro w' hr
    obtain ⟨hr, hi⟩ := hrely w w' hr hi
    exact ⟨h (f w') hr, hi⟩
  | fail e => trivial
  | call op k ih =>
    intro w' hr ha out ho
    obtain ⟨hr, hi⟩ := hrely w w' hr hi
    obtain ⟨hg, hk⟩ := h (f w') hr (hassume op w' hi ha) _ (hout op w' out ho)
    obtain ⟨hi, hg⟩ := hcall op w' out hi ha ho hg
    exact ⟨hg, ih out.1 hk hi⟩

/-- The same in one world. -/
theorem wp_invariant {C' : Contract W Op} {I : W → Prop}
    (hassume : ∀ op w, I w → C'.assume op w → C.assume op w)
    (hrely : ∀ w w', C'.rely w w' → I w → C.rely w w' ∧ I w')
    (hcall : ∀ op w w', I w → C'.assume op w → C.guarantee op w w' →
      I w' ∧ C'.guarantee op w w')
    (h : wp M C Q p w) (hi : I w) : wp M C' (fun a w => Q a w ∧ I w) p w :=
  wp_lift id (fun _ _ _ ho => ho) hassume hrely
    (fun op w out hi ha _ hg => hcall op w out.2 hi ha hg) h hi

/-! ## Runs -/

/-- The condition on a run: a call finds what it assumes, and others do what is relied on. -/
def Admissible (M : Machine W Op Ret F A) (C : Contract W Op) :
    W × Prog Op Ret ε α → Tick F A → Prop
  | (w, .call op _), .go => C.assume op w
  | (w, .call op _), .fault _ => C.assume op w
  | (w, _), .act a => ∀ w', M.act a w = some w' → C.rely w w'
  | (_, .done _), _ => True
  | (_, .fail _), _ => True

/-- Where nobody else acts and nothing is assumed, every run is admissible. -/
theorem admissible_of_isEmpty [IsEmpty A] {s t : W × Prog Op Ret ε α} {ticks : List (Tick F A)}
    (hassume : ∀ op w, C.assume op w) (run : Run (Machine.step M) (fun _ _ => True) s ticks t) :
    Run (Machine.step M) (Admissible M C) s ticks t := by
  refine run.mono fun s tick _ => ?_
  cases tick with
  | act a => exact isEmptyElim a
  | go | fault => rcases s with ⟨w, _ | _ | _⟩ <;> first | trivial | exact hassume _ _

/-- One step keeps the weakest precondition, and a call meets its guarantee. -/
theorem wp_step {s s' : W × Prog Op Ret ε α} {t : Tick F A} (h : wp M C Q s.2 s.1)
    (ha : Admissible M C s t) (hs : M.step s t = some s') :
    wp M C Q s'.2 s'.1 ∧ ((∃ a, t = .act a ∧ C.rely s.1 s'.1) ∨
      ∃ op k, s.2 = .call op k ∧ C.guarantee op s.1 s'.1) := by
  obtain ⟨w, p⟩ := s
  cases t with
  | act a =>
    have hact : (M.act a w).map (·, p) = some s' := by
      cases p <;> exact hs
    obtain ⟨w', hw, rfl⟩ := Option.map_eq_some_iff.mp hact
    have hr : C.rely w w' := by
      cases p <;> exact ha w' hw
    exact ⟨wp_rely h hr, .inl ⟨a, rfl, hr⟩⟩
  | go =>
    cases p with
    | done | fail => cases hs
    | call op k =>
      cases hs
      obtain ⟨hg, hk⟩ := h w (C.rely_refl w) ha _ .exec
      exact ⟨hk, .inr ⟨op, k, rfl, hg⟩⟩
  | fault f =>
    cases p with
    | done | fail => cases hs
    | call op k =>
      cases hs
      obtain ⟨hg, hk⟩ := h w (C.rely_refl w) ha _ (.fault f)
      exact ⟨hk, .inr ⟨op, k, rfl, hg⟩⟩

/-- **A run keeps the weakest precondition.** -/
theorem wp_run {s t : W × Prog Op Ret ε α} {ticks : List (Tick F A)}
    (run : Run (Machine.step M) (Admissible M C) s ticks t) (h : wp M C Q s.2 s.1) :
    wp M C Q t.2 t.1 :=
  run.invariant (I := fun s => wp M C Q s.2 s.1) (fun _ _ _ hi hc hs => (wp_step hi hc hs).1) h

/-- What the calls guarantee to keep, and others keep, holds all along a run. -/
theorem wp_always {I : W → Prop} {s t : W × Prog Op Ret ε α} {ticks : List (Tick F A)}
    (hrely : ∀ w w', C.rely w w' → I w → I w')
    (hcall : ∀ op w w', C.guarantee op w w' → I w → I w')
    (run : Run (Machine.step M) (Admissible M C) s ticks t) (h : wp M C Q s.2 s.1) (hi : I s.1) :
    I t.1 := by
  refine (run.invariant (I := fun s => wp M C Q s.2 s.1 ∧ I s.1) ?_ ⟨h, hi⟩).2
  rintro s e s' ⟨h, hi⟩ hc hs
  obtain ⟨h', ⟨_, _, hr⟩ | ⟨op, _, _, hg⟩⟩ := wp_step h hc hs
  · exact ⟨h', hrely _ _ hr hi⟩
  · exact ⟨h', hcall op _ _ hg hi⟩

/-- **A run of a sequence** is a run of its first program, or goes on with the second when that is
done. -/
theorem run_bind {f : α → Prog Op Ret ε β} {s t : W × Prog Op Ret ε β} {ticks : List (Tick F A)}
    (run : Run (Machine.step M) (fun _ _ => True) s ticks t) (hs : s = (w, p >>= f)) :
    (∃ p', t.2 = p' >>= f ∧ (∀ a, p' ≠ .done a) ∧
        Run (Machine.step M) (fun _ _ => True) (w, p) ticks (t.1, p')) ∨
      ∃ ticks₁ ticks₂ w₁ a, ticks = ticks₁ ++ ticks₂ ∧
        Run (Machine.step M) (fun _ _ => True) (w, p) ticks₁ (w₁, .done a) ∧
        Run (Machine.step M) (fun _ _ => True) (w₁, f a) ticks₂ t := by
  induction run generalizing w p with
  | nil =>
    subst hs
    cases p with
    | done a => exact .inr ⟨[], [], w, a, rfl, .nil _, .nil _⟩
    | fail | call => exact .inl ⟨_, rfl, nofun, .nil _⟩
  | @cons s s' t tick ticks hc hstep run ih =>
    subst hs
    cases p with
    | done a => exact .inr ⟨[], tick :: ticks, w, a, rfl, .nil _, .cons hc hstep run⟩
    | fail e =>
      cases tick with
      | go | fault => cases hstep
      | act a =>
        obtain ⟨w', hw, rfl⟩ := Option.map_eq_some_iff.mp hstep
        have hfirst : M.step ((w, .fail e) : W × Prog Op Ret ε α) (.act a) = some (w', .fail e) :=
          Option.map_eq_some_iff.mpr ⟨w', hw, rfl⟩
        exact (ih rfl).imp (fun ⟨p', hp, hne, h⟩ => ⟨p', hp, hne, .cons trivial hfirst h⟩)
          fun ⟨ticks₁, ticks₂, w₁, a', ht, h₁, h₂⟩ =>
            ⟨_ :: ticks₁, ticks₂, w₁, a', by rw [ht]; rfl, .cons trivial hfirst h₁, h₂⟩
    | call op k =>
      obtain ⟨w', p', hfirst, rfl⟩ : ∃ w' p', M.step (w, .call op k) tick = some (w', p') ∧
          s' = (w', p' >>= f) := by
        cases tick with
        | go =>
          cases hstep
          exact ⟨_, _, rfl, rfl⟩
        | fault a =>
          cases hstep
          exact ⟨_, _, rfl, rfl⟩
        | act a =>
          obtain ⟨w', hw, rfl⟩ := Option.map_eq_some_iff.mp hstep
          exact ⟨w', .call op k, Option.map_eq_some_iff.mpr ⟨w', hw, rfl⟩, rfl⟩
      exact (ih rfl).imp (fun ⟨p', hp, hne, h⟩ => ⟨p', hp, hne, .cons trivial hfirst h⟩)
        fun ⟨ticks₁, ticks₂, w₁, a', ht, h₁, h₂⟩ =>
          ⟨_ :: ticks₁, ticks₂, w₁, a', by rw [ht]; rfl, .cons trivial hfirst h₁, h₂⟩

/-- A run of a program is one of the program that catches its error. -/
theorem run_attempt {ε' : Type} {s t : W × Prog Op Ret ε α} {ticks : List (Tick F A)}
    (run : Run (Machine.step M) (fun _ _ => True) s ticks t) :
    Run (Machine.step M) (fun _ _ => True)
      (s.1, (s.2.attempt : Prog Op Ret ε' (Except ε α))) ticks (t.1, t.2.attempt) := by
  induction run with
  | nil => exact .nil _
  | @cons s s' t tick ticks hc hstep run ih =>
    refine .cons trivial ?_ ih
    obtain ⟨w, p⟩ := s
    cases tick with
    | act a =>
      have hact : (M.act a w).map (·, p) = some s' := by
        cases p <;> exact hstep
      obtain ⟨w', hw, rfl⟩ := Option.map_eq_some_iff.mp hact
      cases p <;> exact Option.map_eq_some_iff.mpr ⟨w', hw, rfl⟩
    | go | fault =>
      cases p with
      | done | fail => cases hstep
      | call op k =>
        cases hstep
        rfl

/-- A program that ran to its end meets its postcondition. -/
theorem wp_done {s : W × Prog Op Ret ε α} {ticks : List (Tick F A)} {a : α}
    (run : Run (Machine.step M) (Admissible M C) s ticks (w, .done a)) (h : wp M C Q s.2 s.1) :
    Q a w :=
  wp_run run h w (C.rely_refl w)

end

/-! ## Errors -/

section
variable {W Op : Type} {Ret : Op → Type} {F A ε α β : Type} (M : Machine W Op Ret F A)
  (G : Op → W → W → Prop)

/-- The weakest precondition of a program that runs alone, where an error has a postcondition too. -/
def wpe (Q : Except ε α → W → Prop) (p : Prog Op Ret ε α) (w : W) : Prop :=
  wp M (.alone G) Q (p.attempt : Prog Op Ret Empty (Except ε α)) w

variable {M G} {Q Q' : Except ε α → W → Prop} {p : Prog Op Ret ε α} {w : W}

theorem wpe_done {a : α} (h : Q (.ok a) w) : wpe M G Q (.done a) w := by
  rintro _ rfl
  exact h

theorem wpe_fail {e : ε} (h : Q (.error e) w) : wpe M G Q (.fail e) w := by
  rintro _ rfl
  exact h

/-- One call. -/
theorem wpe_call {op : Op} {k : Ret op → Prog Op Ret ε α}
    (h : ∀ out, Outcome M op w out → G op w out.2 ∧ wpe M G Q (k out.1) out.2) :
    wpe M G Q (.call op k) w := by
  rintro _ rfl - out hout
  exact h out hout

/-- A weaker postcondition. -/
theorem wpe_mono (h : wpe M G Q p w) (hQ : ∀ r w, Q r w → Q' r w) : wpe M G Q' p w := wp_mono h hQ

/-- Sequencing: an error ends the program. -/
theorem wpe_bind {f : α → Prog Op Ret ε β} {R : Except ε β → W → Prop}
    (h : wpe M G (fun r w => (∀ a, r = .ok a → wpe M G R (f a) w) ∧
      ∀ e, r = .error e → R (.error e) w) p w) : wpe M G R (p >>= f) w := by
  unfold wpe at h ⊢
  rw [Prog.attempt_bind]
  refine wp_bind (wp_mono h fun r w hr => ?_)
  cases r with
  | ok a => exact hr.1 a rfl
  | error e =>
    rintro _ rfl
    exact hr.2 e rfl

/-- A program of whose errors nothing is said. -/
theorem wpe_of_wp {Q : α → W → Prop} (h : wp M (.alone G) Q p w) :
    wpe M G (fun r w => ∀ a, r = .ok a → Q a w) p w := by
  unfold wpe
  induction p generalizing w with
  | done a =>
    rintro _ rfl b hb
    cases hb
    exact h w rfl
  | fail e =>
    rintro _ rfl b hb
    cases hb
  | call op k ih =>
    intro w' hr ha out hout
    obtain ⟨hg, hk⟩ := h w' hr ha out hout
    exact ⟨hg, ih _ hk⟩

/-- A program whose error is caught. -/
theorem wpe_attempt {ε' : Type} {R : Except ε' (Except ε α) → W → Prop}
    (h : wpe M G (fun r w => R (.ok r) w) p w) : wpe M G R (p.attempt) w := by
  unfold wpe at h ⊢
  induction p generalizing w with
  | done a | fail e => exact h
  | call op k ih =>
    intro w' hr ha out hout
    obtain ⟨hg, hk⟩ := h w' hr ha out hout
    exact ⟨hg, ih _ hk⟩

/-- A loop, by what holds while `xs` remain; an error ends it. -/
theorem wpe_forM {γ : Type} {f : γ → Prog Op Ret ε PUnit} {I : List γ → W → Prop}
    {R : Except ε PUnit → W → Prop} (hend : ∀ w, I [] w → R (.ok PUnit.unit) w)
    (h : ∀ x xs w, I (x :: xs) w → wpe M G (fun r w => (∀ a, r = .ok a → I xs w) ∧
      ∀ e, r = .error e → R (.error e) w) (f x) w) :
    ∀ {xs : List γ} {w : W}, I xs w → wpe M G R (forM xs f) w
  | [], w, hi => wpe_done (hend w hi)
  | x :: xs, w, hi => wpe_bind (wpe_mono (h x xs w hi) fun _ _ hr =>
      ⟨fun a ha => wpe_forM hend h (hr.1 a ha), hr.2⟩)

/-- **What the calls of a safe program keep**, it keeps. -/
theorem wpe_of_safe {P : Op → Prop} {I : W → Prop} (hp : p.Safe P fun _ => True)
    (hcall : ∀ op w out, P op → I w → Outcome M op w out → G op w out.2 ∧ I out.2) (hi : I w) :
    wpe M G (fun _ w => I w) p w := by
  induction p generalizing w with
  | done a => exact wpe_done hi
  | fail e => exact wpe_fail hi
  | call op k ih =>
    refine wpe_call fun out hout => ?_
    obtain ⟨hg, hi'⟩ := hcall op w out hp.1 hi hout
    exact ⟨hg, ih _ (hp.2 _) hi'⟩

/-- Where every call meets the guarantee, every program does. -/
theorem wpe_trivial (hG : ∀ op w w', G op w w') (hQ : ∀ r w, Q r w) : wpe M G Q p w := by
  unfold wpe
  induction p generalizing w with
  | done a | fail e => exact fun w' _ => hQ _ w'
  | call op k ih => exact fun w' _ _ out _ => ⟨hG op w' out.2, ih _⟩

variable [IsEmpty A] {ticks : List (Tick F A)} {w' : W}

/-- **A run that ends meets the postcondition**, with a value or an error. -/
theorem wpe_ended {r : Except ε α} (h : wpe M G Q p w) {p' : Prog Op Ret ε α}
    (run : Run (Machine.step M) (fun _ _ => True) (w, p) ticks (w', p'))
    (hend : (p'.attempt : Prog Op Ret Empty (Except ε α)) = .done r) : Q r w' := by
  have hrun : Run (Machine.step M) (fun _ _ => True) (w, (p.attempt : Prog Op Ret Empty _)) ticks
      (w', p'.attempt) := run_attempt run
  rw [hend] at hrun
  exact wp_done (admissible_of_isEmpty (fun _ _ => trivial) hrun) h

/-- **What every call keeps holds all along a run.** -/
theorem wpe_always {I : W → Prop} (h : wpe M G Q p w) (hcall : ∀ op w w', G op w w' → I w → I w')
    {p' : Prog Op Ret ε α} (run : Run (Machine.step M) (fun _ _ => True) (w, p) ticks (w', p'))
    (hi : I w) : I w' := by
  have hrun : Run (Machine.step M) (fun _ _ => True) (w, (p.attempt : Prog Op Ret Empty _)) ticks
      (w', p'.attempt) := run_attempt run
  refine wp_always (fun w w' hr hi => ?_) hcall
    (admissible_of_isEmpty (fun _ _ => trivial) hrun) h hi
  exact (hr : w = w') ▸ hi

end

end Pear.Lib
