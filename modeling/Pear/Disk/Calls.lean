import Pear.Disk

/-!
# What the calls of a materialization do

The contract the programs of `Pear.Disk` are specified against. A program names the changes it may
make (`allowed`: at a location, to a content) and meets it at every call, failed or not: no other
content changes, and nothing else is touched. Others may act between the calls, but leave a set `S`
of locations and all links alone (`Calm`). Every assertion here is one about content that such
actions keep (`Stable`), so a call that changes no content keeps it too.
-/

namespace Pear

open Lib (Errno Node Attr Content)

/-! ## The contract -/

/-- No link appears. -/
def NoNewLinks (t t' : Tree) : Prop :=
  ∀ x target, t'.content x = some (.link target) → t.content x = some (.link target)

/-- What others do: they keep what is in `S`, and the links. -/
structure Calm (S : Loc → Prop) (t t' : Tree) : Prop where
  content : ∀ x, S x → t'.content x = t.content x
  link : ∀ x target, t'.content x = some (.link target) ↔ t.content x = some (.link target)

/-- The contents that change are allowed to. -/
def Changes (allowed : Loc → Option (Content Text) → Prop) (t t' : Tree) : Prop :=
  ∀ x, t'.content x = t.content x ∨ allowed x (t'.content x)

/-- What a call does: allowed changes, touching only what may change, and no new link. -/
structure Keeps (allowed : Loc → Option (Content Text) → Prop) (op : DiskOp) (t t' : Tree) :
    Prop where
  changes : Changes allowed t t'
  touches : ∀ x ∈ op.touches t, ∃ c, allowed x c
  links : NoNewLinks t t'

/-- The contract: `assume` holds of the tree at a call. -/
def diskContract (S : Loc → Prop) (assume : DiskOp → Tree → Prop)
    (allowed : Loc → Option (Content Text) → Prop) : Lib.Contract Tree DiskOp where
  assume := assume
  rely := Calm S
  guarantee := Keeps allowed
  rely_refl _ := ⟨fun _ _ => rfl, fun _ _ => Iff.rfl⟩
  rely_trans h h' := ⟨fun x hx => (h'.content x hx).trans (h.content x hx),
    fun x target => (h'.link x target).trans (h.link x target)⟩

/-- An assertion that others keep. -/
def Stable (S : Loc → Prop) (P : Tree → Prop) : Prop := ∀ t t', Calm S t t' → P t → P t'

section
variable {S : Loc → Prop} {t t' : Tree} {l : Loc} {P Q : Tree → Prop}

/-- Trees of one content are calm. -/
theorem Calm.of_eq (h : ∀ x, t'.content x = t.content x) : Calm S t t' :=
  ⟨fun x _ => h x, fun x _ => by rw [h x]⟩

theorem Calm.noNewLinks (h : Calm S t t') : NoNewLinks t t' := fun x target => (h.link x target).mp

theorem Stable.and (hP : Stable S P) (hQ : Stable S Q) : Stable S fun t => P t ∧ Q t :=
  fun t t' hc h => ⟨hP t t' hc h.1, hQ t t' hc h.2⟩

theorem Stable.forall {ι : Sort*} {P : ι → Tree → Prop} (h : ∀ i, Stable S (P i)) :
    Stable S fun t => ∀ i, P i t := fun t t' hc hp i => h i t t' hc (hp i)

theorem Stable.imp {p : Prop} (h : p → Stable S P) : Stable S fun t => p → P t :=
  fun t t' hc hp hpp => h hpp t t' hc (hp hpp)

theorem stable_true : Stable S fun _ => True := fun _ _ _ _ => trivial

theorem stable_content (hl : S l) (c : Option (Content Text)) : Stable S fun t => t.content l = c :=
  fun _ _ hc h => (hc.content l hl).trans h

theorem stable_real (l : Loc) : Stable S fun t => t.Real l := fun _ _ hc h => h.mono hc.noNewLinks

theorem stable_plain (l : Loc) : Stable S fun t => t.Plain l := fun _ _ hc h => h.mono hc.noNewLinks

theorem stable_not_link (l : Loc) : Stable S fun t => ∀ target, t.content l ≠ some (.link target) :=
  fun _ _ hc h target hl => h target (hc.noNewLinks l target hl)

end

/-- What a program of the disk does. -/
abbrev Spec {A α : Type} (M : Lib.Machine Tree DiskOp DiskOp.Ret (Option Nat) A) (S : Loc → Prop)
    (assume : DiskOp → Tree → Prop) (allowed : Loc → Option (Content Text) → Prop)
    (Q : α → Tree → Prop) (p : DiskProg α) (t : Tree) : Prop :=
  Lib.wp M (diskContract S assume allowed) Q p t

end Pear
