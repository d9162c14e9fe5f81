import Mathlib.Data.List.Basic

/-!
# Transactions on one connection

A database connection with at most one open transaction, which works on a copy. A statement may
refuse to run, and any call may fail: `fault` names the one that does. `Conn.withTx` begins, runs
its statements and commits, and rolls back when one of them or the commit fails. From a connection
without an open transaction it either does all of it or nothing (`withTx_cases`).
-/

namespace Pear.Lib

/-- A connection: what is committed, and the working copy of an open transaction. -/
structure Conn (DB : Type) where
  disk : DB
  tx : Option DB

namespace Conn

variable {DB : Type}

/-- `BEGIN IMMEDIATE`, which fails in an open transaction. -/
def begin (ok : Bool) (c : Conn DB) : Option (Conn DB) :=
  if ok && c.tx.isNone then some { c with tx := some c.disk } else none

/-- A statement of the open transaction, and whether it ran. -/
def exec (ok : Bool) (stmt : DB → Option DB) (c : Conn DB) : Bool × Conn DB :=
  match c.tx.bind stmt with
  | some db => if ok then (true, { c with tx := some db }) else (false, c)
  | none => (false, c)

/-- Statements in order up to the first that fails; `fault` is the place of one that does. -/
def execAll : List (DB → Option DB) → Option Nat → Conn DB → Bool × Conn DB
  | [], _, c => (true, c)
  | stmt :: stmts, fault, c =>
    match c.exec (fault ≠ some 0) stmt with
    | (true, c) => execAll stmts (fault.bind fun n => if n = 0 then none else some (n - 1)) c
    | (false, c) => (false, c)

/-- `COMMIT`. One that fails leaves the transaction open. -/
def commit (ok : Bool) (c : Conn DB) : Bool × Conn DB :=
  match c.tx with
  | some db => if ok then (true, { disk := db, tx := none }) else (false, c)
  | none => (false, c)

/-- `ROLLBACK`. -/
def rollback (c : Conn DB) : Conn DB := { c with tx := none }

/-- The calls that can fail in a transaction. -/
inductive Fault where
  | begin
  | statement (n : Nat)
  | commit
deriving DecidableEq

/-- The place of a fault among the statements. -/
def Fault.index : Option Fault → Option Nat
  | some (.statement n) => some n
  | _ => none

/-- Run statements in a transaction: all of them, or none. -/
def withTx (stmts : List (DB → Option DB)) (fault : Option Fault) (c : Conn DB) :
    Bool × Conn DB :=
  match c.begin (fault ≠ some .begin) with
  | none => (false, c)
  | some c =>
    match c.execAll stmts (Fault.index fault) with
    | (true, c) =>
      match c.commit (fault ≠ some .commit) with
      | (true, c) => (true, c)
      | (false, c) => (false, c.rollback)
    | (false, c) => (false, c.rollback)

/-- Statements leave what is committed alone, and all have run when none failed. -/
theorem execAll_cases : ∀ (stmts : List (DB → Option DB)) (fault : Option Nat) (disk db : DB),
    (∃ db', execAll stmts fault ⟨disk, some db⟩ = (true, ⟨disk, some db'⟩) ∧
        stmts.foldlM (fun db stmt => stmt db) db = some db') ∨
      ∃ db', execAll stmts fault ⟨disk, some db⟩ = (false, ⟨disk, some db'⟩)
  | [], _, _, db => .inl ⟨db, rfl, rfl⟩
  | stmt :: stmts, fault, disk, db => by
    unfold execAll exec
    cases hs : stmt db with
    | none => exact .inr ⟨db, by simp [hs]⟩
    | some db₁ =>
      by_cases hf : fault = some 0
      · exact .inr ⟨db, by simp [hs, hf]⟩
      · simp only [Option.bind_some, hs, ne_eq, hf, not_false_eq_true, decide_true, if_true,
          List.foldlM_cons, Option.bind_eq_bind]
        exact execAll_cases stmts _ disk db₁

/-- **A transaction does all of its statements or none.** -/
theorem withTx_cases (stmts : List (DB → Option DB)) (fault : Option Fault) (disk : DB) :
    withTx stmts fault ⟨disk, none⟩ = (false, ⟨disk, none⟩) ∨
      ∃ db, stmts.foldlM (fun db stmt => stmt db) disk = some db ∧
        withTx stmts fault ⟨disk, none⟩ = (true, ⟨db, none⟩) := by
  unfold withTx begin
  by_cases hb : fault = some .begin
  · simp [hb]
  simp only [hb, ne_eq, not_false_eq_true, decide_true, Option.isNone_none, Bool.and_self, if_true]
  rcases execAll_cases stmts (Fault.index fault) disk disk with ⟨db, he, hall⟩ | ⟨db, he⟩
  · rw [he]
    by_cases hc : fault = some .commit
    · exact .inl (by simp [commit, hc, rollback])
    · exact .inr ⟨db, hall, by simp [commit, hc]⟩
  · rw [he]
    exact .inl rfl

/-- **What every statement keeps, the transaction keeps**, whether it is committed or not. -/
theorem withTx_keeps {α : Type} (f : DB → α) (stmts : List (DB → Option DB))
    (fault : Option Fault) (disk : DB)
    (h : ∀ stmt ∈ stmts, ∀ db db', stmt db = some db' → f db' = f db) :
    f (withTx stmts fault ⟨disk, none⟩).2.disk = f disk := by
  have hall : ∀ (stmts : List (DB → Option DB)),
      (∀ stmt ∈ stmts, ∀ db db', stmt db = some db' → f db' = f db) → ∀ db db',
      stmts.foldlM (fun db stmt => stmt db) db = some db' → f db' = f db := by
    intro stmts
    induction stmts with
    | nil =>
      intro _ db db' hrun
      cases hrun
      rfl
    | cons stmt stmts ih =>
      intro h db db' hrun
      obtain ⟨db₁, hs, hrest⟩ := Option.bind_eq_some_iff.mp hrun
      rw [ih (fun s hmem => h s (List.mem_cons_of_mem _ hmem)) db₁ db' hrest,
        h stmt List.mem_cons_self db db₁ hs]
  rcases withTx_cases stmts fault disk with hfail | ⟨db, hrun, hok⟩
  · rw [hfail]
  · rw [hok]
    exact hall stmts h disk db hrun

end Conn

end Pear.Lib
