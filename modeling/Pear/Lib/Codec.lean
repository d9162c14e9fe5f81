import Mathlib

/-!
# Codecs over byte strings

A computation that may fail with an error or panic (`Fallible`), numbers of a fixed width in
little-endian bytes, and UTF-8. A reader takes a value off the front of its input. It is exact
(`Reads`) when it never panics and succeeds on just what a writer has put there; exact readers run in a
row make an exact reader of lists (`Reads.many`).
-/

namespace Pear.Lib

/-! ## Computations that may fail -/

/-- The outcome of a computation: a value, an error, or a panic. -/
inductive Fallible (ε α : Type) where
  | ok (a : α)
  | error (e : ε)
  | panic
deriving DecidableEq

namespace Fallible

variable {ε α β : Type} {x : Fallible ε α} {f : α → Fallible ε β} {b : β}

/-- What comes after an error or a panic does not run. -/
protected def bind (x : Fallible ε α) (f : α → Fallible ε β) : Fallible ε β :=
  match x with
  | ok a => f a
  | error e => error e
  | panic => panic

instance : Monad (Fallible ε) where
  pure := ok
  bind := Fallible.bind

/-- The value of an option (`unwrap`). -/
def unwrap (x : Option α) : Fallible ε α :=
  match x with
  | some a => ok a
  | none => panic

/-- End with an error under a condition. -/
def failIf (c : Prop) [Decidable c] (e : ε) : Fallible ε Unit := if c then error e else ok ()

@[simp] theorem ok_bind (a : α) (f : α → Fallible ε β) : ok a >>= f = f a := rfl

@[simp] theorem error_bind (e : ε) (f : α → Fallible ε β) : error e >>= f = error e := rfl

@[simp] theorem pure_eq (a : α) : (pure a : Fallible ε α) = ok a := rfl

theorem failIf_eq_ok {c : Prop} [Decidable c] {e : ε} : failIf c e = ok () ↔ ¬ c := by
  unfold failIf
  split <;> simp [*]

theorem failIf_ne_panic {c : Prop} [Decidable c] {e : ε} : failIf c e ≠ panic := by
  unfold failIf
  split <;> nofun

theorem unwrap_eq_ok {x : Option α} {a : α} : (unwrap x : Fallible ε α) = ok a ↔ x = some a := by
  cases x <;> simp [unwrap]

theorem bind_eq_ok : x >>= f = ok b ↔ ∃ a, x = ok a ∧ f a = ok b := by
  constructor
  · intro h
    match x, h with
    | ok a, h => exact ⟨a, rfl, h⟩
  · rintro ⟨a, rfl, hf⟩
    exact hf

theorem bind_ne_panic (hx : x ≠ panic) (hf : ∀ a, x = ok a → f a ≠ panic) : x >>= f ≠ panic := by
  match x, hx, hf with
  | ok a, _, hf => exact hf a rfl
  | error _, _, _ => nofun

end Fallible

/-! ## Numbers -/

/-- The lowest `n` bytes of a number, the lowest first (`to_le_bytes`). -/
def leBytes : Nat → Nat → List UInt8
  | 0, _ => []
  | n + 1, k => UInt8.ofNat k :: leBytes n (k / 256)

/-- The number of little-endian bytes (`from_le_bytes`). -/
def ofLeBytes : List UInt8 → Nat
  | [] => 0
  | b :: bs => b.toNat + 256 * ofLeBytes bs

@[simp] theorem length_leBytes : ∀ n k, (leBytes n k).length = n
  | 0, _ => rfl
  | n + 1, k => congrArg (· + 1) (length_leBytes n (k / 256))

theorem ofLeBytes_lt : ∀ bs : List UInt8, ofLeBytes bs < 256 ^ bs.length
  | [] => Nat.one_pos
  | b :: bs => by
    have hb := b.toNat_lt
    have hbs := ofLeBytes_lt bs
    rw [ofLeBytes, List.length_cons, Nat.pow_succ]
    omega

theorem leBytes_ofLeBytes : ∀ bs : List UInt8, leBytes bs.length (ofLeBytes bs) = bs
  | [] => rfl
  | b :: bs => by
    have hb := b.toNat_lt
    have hdiv : (b.toNat + 256 * ofLeBytes bs) / 256 = ofLeBytes bs := by omega
    have hlow : UInt8.ofNat (b.toNat + 256 * ofLeBytes bs) = b := by
      apply UInt8.toNat_inj.mp
      rw [UInt8.toNat_ofNat']
      omega
    rw [List.length_cons, leBytes, ofLeBytes, hdiv, leBytes_ofLeBytes bs, hlow]

theorem ofLeBytes_leBytes : ∀ {n k : Nat}, k < 256 ^ n → ofLeBytes (leBytes n k) = k
  | 0, k, h => by
    simp at h
    simp [leBytes, ofLeBytes, h]
  | n + 1, k, h => by
    have hdiv : k / 256 < 256 ^ n := by
      rw [Nat.pow_succ] at h
      omega
    rw [leBytes, ofLeBytes, ofLeBytes_leBytes hdiv, UInt8.toNat_ofNat']
    omega

/-! ## UTF-8 -/

/-- The bytes of a string (`as_bytes`). -/
def utf8 (s : List Char) : List UInt8 := s.flatMap String.utf8EncodeChar

/-- The string of some bytes, if they are one (`from_utf8`). -/
def ofUtf8 (b : List UInt8) : Option (List Char) := (String.fromUTF8? b.toByteArray).map String.toList

/-- A string is read back from its bytes. -/
theorem ofUtf8_utf8 (s : List Char) : ofUtf8 (utf8 s) = some s := by
  have hbytes : (utf8 s).toByteArray = (String.ofList s).toByteArray := by
    rw [String.toByteArray_ofList]
    rfl
  have hvalid : (utf8 s).toByteArray.IsValidUTF8 := hbytes ▸ (String.ofList s).isValidUTF8
  have hstring : String.fromUTF8 (utf8 s).toByteArray hvalid = String.ofList s :=
    String.toByteArray_inj.mp hbytes
  rw [ofUtf8, String.fromUTF8?, dif_pos hvalid, hstring, Option.map_some, String.toList_ofList]

/-- No character is without a byte. -/
theorem length_le_utf8 (s : List Char) : s.length ≤ (utf8 s).length := by
  induction s with
  | nil => exact Nat.le_refl _
  | cons c s ih =>
    have hc := c.utf8Size_pos
    rw [utf8, List.flatMap_cons, List.length_append, String.length_utf8EncodeChar, ← utf8,
      List.length_cons]
    omega

/-- Strings with the same bytes are equal. -/
theorem utf8_injective : Function.Injective utf8 := fun s t h => by
  have hs := ofUtf8_utf8 s
  rw [h, ofUtf8_utf8] at hs
  exact (Option.some.inj hs).symm

/-- The bytes of a string of ASCII characters. -/
theorem utf8_ascii : ∀ {s : List Char}, (∀ c ∈ s, c.toNat < 128) →
    utf8 s = s.map fun c => UInt8.ofNat c.toNat
  | [], _ => rfl
  | c :: s, h => by
    have hc : c.val.toNat ≤ 0x7f := Nat.lt_succ_iff.mp (h c List.mem_cons_self)
    have hbyte : String.utf8EncodeChar c = [UInt8.ofNat c.toNat] := by
      rw [String.utf8EncodeChar, if_pos hc]
      rfl
    rw [utf8, List.flatMap_cons, hbyte, ← utf8, utf8_ascii fun d hd => h d (List.mem_cons_of_mem _ hd)]
    rfl

theorem utf8_cons_ascii {c : Char} (h : c.toNat < 128) (s : List Char) :
    utf8 (c :: s) = UInt8.ofNat c.toNat :: utf8 s := by
  have hone : utf8 [c] = [UInt8.ofNat c.toNat] :=
    utf8_ascii fun d hd => List.mem_singleton.mp hd ▸ h
  have happend : utf8 (c :: s) = utf8 [c] ++ utf8 s := by
    simp only [utf8, List.flatMap_cons, List.flatMap_nil, List.append_nil]
  rw [happend, hone, List.singleton_append]

/-- The string of some ASCII bytes. -/
def ofAscii (b : List UInt8) : List Char := b.map fun x => Char.ofNat x.toNat

theorem toNat_ofAscii {x : UInt8} (h : x.toNat < 128) : (Char.ofNat x.toNat).toNat = x.toNat := by
  rw [Char.toNat_ofNat, if_pos (.inl (by omega))]

theorem utf8_ofAscii {b : List UInt8} (h : ∀ x ∈ b, x.toNat < 128) : utf8 (ofAscii b) = b := by
  have hascii : ∀ c ∈ ofAscii b, c.toNat < 128 := by
    intro c hc
    obtain ⟨x, hx, rfl⟩ := List.mem_map.mp hc
    rw [toNat_ofAscii (h x hx)]
    exact h x hx
  rw [utf8_ascii hascii, ofAscii, List.map_map]
  refine (List.map_congr_left fun x hx => ?_).trans (List.map_id b)
  rw [Function.comp_apply, toNat_ofAscii (h x hx), UInt8.ofNat_toNat, id]

/-! ## Readers -/

section
variable {ε α : Type}

/-- An exact reader: it never panics, and it takes off just what was written, if that is well formed. -/
structure Reads (read : List UInt8 → Fallible ε (α × List UInt8)) (write : α → List UInt8)
    (ok : α → Prop) : Prop where
  total : ∀ b, read b ≠ .panic
  reads : ∀ b a rest, read b = .ok (a, rest) ↔ ok a ∧ b = write a ++ rest

/-- Read `n` values in a row, counted from `i`. -/
def readMany (read : Nat → List UInt8 → Fallible ε (α × List UInt8)) :
    Nat → Nat → List UInt8 → Fallible ε (List α × List UInt8)
  | _, 0, b => pure ([], b)
  | i, n + 1, b => do
    let (a, b) ← read i b
    let (as, b) ← readMany read (i + 1) n b
    return (a :: as, b)

/-- **Exact readers in a row read lists exactly.** -/
theorem Reads.many {read : Nat → List UInt8 → Fallible ε (α × List UInt8)} {write : α → List UInt8}
    {ok : α → Prop} (h : ∀ i, Reads (read i) write ok) : ∀ i n, Reads (readMany read i n)
      (fun as => as.flatMap write) (fun as => as.length = n ∧ ∀ a ∈ as, ok a)
  | i, 0 => by
    refine ⟨nofun, fun b as rest => ?_⟩
    constructor
    · intro hread
      obtain ⟨rfl, rfl⟩ := Prod.mk.inj (Fallible.ok.inj hread)
      exact ⟨⟨rfl, nofun⟩, rfl⟩
    · rintro ⟨⟨hlen, -⟩, rfl⟩
      rw [List.length_eq_zero_iff.mp hlen]
      rfl
  | i, n + 1 => by
    have ih := Reads.many h (i + 1) n
    refine ⟨fun b => ?_, fun b as rest => ?_⟩
    · exact Fallible.bind_ne_panic ((h i).total b) fun _ _ =>
        Fallible.bind_ne_panic (ih.total _) fun _ _ => nofun
    · rw [readMany, Fallible.bind_eq_ok]
      constructor
      · rintro ⟨⟨a, b₁⟩, ha, hrest⟩
        obtain ⟨⟨as', b₂⟩, has, hdone⟩ := Fallible.bind_eq_ok.mp hrest
        obtain ⟨rfl, rfl⟩ := Prod.mk.inj (Fallible.ok.inj hdone)
        obtain ⟨hok, rfl⟩ := ((h i).reads _ _ _).mp ha
        obtain ⟨⟨hlen, hall⟩, rfl⟩ := (ih.reads _ _ _).mp has
        exact ⟨⟨congrArg (· + 1) hlen, List.forall_mem_cons.mpr ⟨hok, hall⟩⟩, by simp⟩
      · rintro ⟨⟨hlen, hall⟩, rfl⟩
        obtain ⟨a, as', rfl⟩ := List.exists_cons_of_length_eq_add_one hlen
        obtain ⟨hok, hall⟩ := List.forall_mem_cons.mp hall
        refine ⟨(a, as'.flatMap write ++ rest), ((h i).reads _ _ _).mpr ⟨hok, by simp⟩, ?_⟩
        refine Fallible.bind_eq_ok.mpr ⟨(as', rest), (ih.reads _ _ _).mpr ⟨⟨?_, hall⟩, rfl⟩, rfl⟩
        exact Nat.succ.inj hlen

end

end Pear.Lib
