import Pear.Rotation.Stale

/-!
# Racing rotations

A ring has one key for each generation, and a union takes the other ring's. So where two devices
mint the same generation, the merge of one drops its own key, with whatever was sealed under it
(`racing_rotations_strand`). Where no device stores a generation that another one's stored ring
already has, all rings are the first keys of one sequence, which grows by a key at each rotation
(`Follows`, `Rings`). Then a device keeps every key it sealed under, and when each has run one more
rotation to its end, every member's wrap has it (`heads_stay_readable`).
-/

namespace Pear

open Pear.Lib

section
variable {K : Type}

/-- The generations of a ring are the first keys of the sequence. -/
def Follows (keys : List K) (r : Keyring K) : Prop :=
  ∀ g : Nat, r.keys[g]? = if 1 ≤ g ∧ g ≤ r.newestGen then keys[g - 1]? else none

/-- The newest generation in a file; there is none when there is no ring. -/
def RingFile.newest : RingFile K → Nat
  | .ring r => r.newestGen
  | .missing | .torn => 0

variable {keys keys' : List K} {r other : Keyring K} {g : Nat} {key : K}

/-- The newest generation of a ring that follows a sequence. -/
theorem Follows.bounds (h : Follows keys r) : 1 ≤ r.newestGen ∧ r.newestGen ≤ keys.length := by
  have hnewest := h r.newestGen
  rw [r.newest_key] at hnewest
  split at hnewest
  · rename_i hle
    have := (List.getElem?_eq_some_iff.mp hnewest.symm).1
    exact ⟨hle.1, by omega⟩
  · cases hnewest

theorem Follows.lookup (h : Follows keys r) (h1 : 1 ≤ g) (hle : g ≤ r.newestGen) :
    r.keys[g]? = keys[g - 1]? := by rw [h, if_pos ⟨h1, hle⟩]

/-- The generations of a ring that follows a sequence. -/
theorem Follows.mem (h : Follows keys r) (h1 : 1 ≤ g) (hle : g ≤ r.newestGen) : g ∈ r.keys := by
  have hbounds := h.bounds
  refine Keyring.mem_keys_iff.mpr ⟨keys[g - 1], ?_⟩
  rw [h.lookup h1 hle, List.getElem?_eq_getElem]

/-- A longer sequence. -/
theorem Follows.mono (h : Follows keys r) (hpre : keys <+: keys') : Follows keys' r := by
  obtain ⟨more, rfl⟩ := hpre
  intro g
  rw [h]
  have hbounds := h.bounds
  split
  · rw [List.getElem?_append_left (by omega)]
  · rfl

/-- A union of two rings that follow one sequence. -/
theorem Follows.union [DecidableEq K] (h : Follows keys r) (ho : Follows keys other) :
    Follows keys (r.unionFrom other).1 := by
  intro g
  rw [Keyring.unionFrom_keys, Keyring.newestGen_unionFrom, h, ho]
  by_cases h1 : 1 ≤ g
  · by_cases ho : g ≤ other.newestGen
    · have hbounds := ‹Follows keys other›.bounds
      rw [if_pos ⟨h1, ho⟩, List.getElem?_eq_getElem (by omega), Option.some_or,
        if_pos ⟨h1, by omega⟩]
    · rw [if_neg (by omega), Option.none_or]
      by_cases hr : g ≤ r.newestGen
      · rw [if_pos ⟨h1, hr⟩, if_pos ⟨h1, by omega⟩]
      · rw [if_neg (by omega), if_neg (by omega)]
  · rw [if_neg (by omega), if_neg (by omega), if_neg (by omega)]
    rfl

/-- A rotation of a ring that has the whole sequence. -/
theorem Follows.rotate (h : Follows keys r) (hall : r.newestGen = keys.length)
    (hlt : r.newestGen + 1 < 2 ^ 32) : Follows (keys ++ [key]) (r.rotate key) := by
  intro g
  rw [Keyring.rotate_keys, Keyring.nextGen_eq hlt, Keyring.newestGen_rotate hlt, h]
  by_cases hg : r.newestGen + 1 = g
  · rw [if_pos hg, if_pos (by omega), List.getElem?_append_right (by omega)]
    simp [← hg, hall]
  · rw [if_neg hg]
    by_cases hle : 1 ≤ g ∧ g ≤ r.newestGen
    · rw [if_pos hle, if_pos (by omega), List.getElem?_append_left (by omega)]
    · rw [if_neg hle, if_neg (by omega)]

theorem newestGen_fromLegacy : (Keyring.fromLegacy key).newestGen = 1 :=
  Keyring.newestGen_eq (Keyring.mem_fromLegacy.mpr rfl)
    fun _ hg => (Keyring.mem_fromLegacy.mp hg).le

/-- A first ring. -/
theorem Follows.fromLegacy : Follows [key] (Keyring.fromLegacy key) := by
  intro g
  rw [newestGen_fromLegacy, Keyring.fromLegacy, getElem?_insert_eq]
  by_cases hg : 1 = g
  · subst hg
    rfl
  · rw [if_neg hg, if_neg (by omega), Std.ExtTreeMap.getElem?_empty]

end

/-! ## The rings of a fleet -/

section
variable {D K : Type}

/-- Every ring in a file, in a wrap or in a pass under way is the beginning of one sequence, and
some device has all of it. -/
structure Rings (keys : List K) (w : KeyWorld D K) (running : D → Prop) : Prop where
  files : ∀ d r, (w.devices d).file = .ring r → Follows keys r
  wraps : ∀ (user : Text) (wrap : Wrap K), w.relay.wraps[user]? = some wrap →
    Follows keys wrap.ring
  reads : ∀ d, running d → ∀ r ∈ (w.devices d).session.read, Follows keys r
  all : keys ≠ [] → ∃ d, (w.devices d).file.newest = keys.length

/-- A minted generation is below the last number, and no other device's file has it. -/
def Unforked (w : KeyWorld D K) (d : D) : Prop :=
  (∀ r, (w.devices d).file = .ring r → r.newestGen + 1 < 2 ^ 32) ∧
  ∀ d' r, d' ≠ d → (w.devices d').file = .ring r → (w.devices d).file.mints ∉ r.keys

variable {keys keys' : List K} {w : KeyWorld D K} {running : D → Prop} {d : D}

theorem Rings.newest_le (h : Rings keys w running) (d : D) :
    (w.devices d).file.newest ≤ keys.length := by
  cases hfile : (w.devices d).file with
  | ring r => exact (h.files d r hfile).bounds.2
  | missing | torn => exact Nat.zero_le _

/-- A device that mints has the whole sequence. -/
theorem Rings.has_all (h : Rings keys w running) (hfork : Unforked w d) :
    (w.devices d).file.newest = keys.length := by
  by_cases hempty : keys = []
  · subst hempty
    exact Nat.le_zero.mp (h.newest_le d)
  · obtain ⟨d', hall⟩ := h.all hempty
    by_cases hd : d' = d
    · rw [← hd, hall]
    · have hlength : 0 < keys.length := List.length_pos_of_ne_nil hempty
      cases hfile' : (w.devices d').file with
      | missing | torn =>
        rw [hfile'] at hall
        exact absurd hall hlength.ne
      | ring r =>
        rw [hfile'] at hall
        -- Were the file behind, the generation it mints would be one of the other's.
        refine Nat.le_antisymm (h.newest_le d) (Nat.not_lt.mp fun hlt => ?_)
        have hnot := hfork.2 d' r hd hfile'
        have hall' : r.newestGen = keys.length := hall
        refine hnot ((h.files d' r hfile').mem ?_ ?_)
        · cases hfile : (w.devices d).file with
          | ring r₀ =>
            rw [RingFile.mints, Keyring.nextGen_eq (hfork.1 r₀ hfile)]
            omega
          | missing | torn => exact le_rfl
        · cases hfile : (w.devices d).file with
          | ring r₀ =>
            rw [hfile] at hlt
            rw [RingFile.mints, Keyring.nextGen_eq (hfork.1 r₀ hfile)]
            exact hall' ▸ hlt
          | missing | torn =>
            rw [RingFile.mints, hall']
            exact hlength

end

section
variable {D K : Type} [DecidableEq D] [DecidableEq K] {entropy : Nat → K}
  {edVerify : Bytes → Bytes → Bytes → Bool} {keys : List K} {w w' : KeyWorld D K}
  {running : D → Prop} {d : D} {op : PassOp K}

/-- How a call moves the rings of a fleet: the sequence may grow, no file loses a generation, and a
device that mints then has all of the sequence. -/
structure Grows (keys keys' : List K) (running : D → Prop) (d : D) (op : PassOp K)
    (w w' : KeyWorld D K) : Prop where
  rings : Rings keys' w' running
  longer : keys <+: keys'
  files : ∀ d', (w.devices d').file.newest ≤ (w'.devices d').file.newest
  minted : ∀ r, op = .storeKeyring r → (w.devices d).session.key ≠ none →
    (w'.devices d).file.newest = keys'.length

omit [DecidableEq K] in
/-- A call that stores no ring. -/
theorem Rings.quiet (h : Rings keys w running) (hop : ∀ r, op ≠ .storeKeyring r)
    (hwraps : ∀ (user : Text) (wrap : Wrap K),
      (effect entropy d op w).relay.wraps[user]? = some wrap → Follows keys wrap.ring)
    (hreads : running d → ∀ r ∈ ((effect entropy d op w).devices d).session.read, Follows keys r) :
    Grows keys keys running d op w (effect entropy d op w) := by
  have hfile : ∀ d', ((effect entropy d op w).devices d').file = (w.devices d').file := by
    intro d'
    by_cases hd : d' = d
    · subst hd
      rw [effect_devices]
      cases op with
      | storeKeyring r => exact absurd rfl (hop r)
      | _ => rfl
    · rw [effect_devices_ne hd]
  refine ⟨⟨fun d' r hr => h.files d' r (hfile d' ▸ hr), hwraps, fun d' hrun => ?_, fun hne => ?_⟩,
    List.prefix_rfl, fun d' => (hfile d' ▸ le_rfl), fun r hr => absurd hr (hop r)⟩
  · by_cases hd : d' = d
    · exact hd ▸ hreads (hd ▸ hrun)
    · rw [effect_devices_ne hd]
      exact h.reads d' hrun
  · obtain ⟨d', hall⟩ := h.all hne
    exact ⟨d', hfile d' ▸ hall⟩

omit [DecidableEq K] in
/-- A ring that is written over an older one. -/
theorem Rings.write {keys' : List K} {r : Keyring K} (h : Rings keys w running) (hrun : running d)
    (hpre : keys <+: keys') (hr : Follows keys' r)
    (hgrow : (w.devices d).file.newest ≤ r.newestGen)
    (hall : keys' = keys ∨ r.newestGen = keys'.length)
    (hmint : (w.devices d).session.key ≠ none → r.newestGen = keys'.length) :
    Grows keys keys' running d (.storeKeyring r) w (effect entropy d (.storeKeyring r) w) := by
  have hfile : ((effect entropy d (.storeKeyring r) w).devices d).file = .ring r := by
    rw [effect_devices]
    rfl
  have hread : ((effect entropy d (.storeKeyring r) w).devices d).session.read =
      (w.devices d).session.read := by
    rw [effect_devices]
    dsimp only [KeyDevice.after, Session.after]
    split <;> rfl
  refine ⟨⟨fun d' r' hr' => ?_, fun user wrap hwrap => (h.wraps user wrap hwrap).mono hpre,
    fun d' hrun' => ?_, fun hne => ?_⟩, hpre, fun d' => ?_, fun _ _ hkey => ?_⟩
  · by_cases hd : d' = d
    · subst hd
      rw [hfile] at hr'
      cases hr'
      exact hr
    · rw [effect_devices_ne hd] at hr'
      exact (h.files d' r' hr').mono hpre
  · by_cases hd : d' = d
    · subst hd
      rw [hread]
      exact fun r hmem => (h.reads d' hrun r hmem).mono hpre
    · rw [effect_devices_ne hd]
      exact fun r hmem => (h.reads d' hrun' r hmem).mono hpre
  · rcases hall with rfl | hall
    · obtain ⟨d', hall⟩ := h.all hne
      by_cases hd : d' = d
      · subst hd
        refine ⟨d', ?_⟩
        rw [hfile]
        exact Nat.le_antisymm hr.bounds.2 (hall ▸ hgrow)
      · exact ⟨d', by rw [effect_devices_ne hd, hall]⟩
    · exact ⟨d, by rw [hfile]; exact hall⟩
  · by_cases hd : d' = d
    · subst hd
      rw [hfile]
      exact hgrow
    · rw [effect_devices_ne hd]
  · rw [hfile]
    exact hmint hkey

/-- A ring that is stored. -/
theorem Rings.store {r : Keyring K} (h : Rings keys w running) (hrun : running d)
    (hdoes : Does edVerify (w.devices d) (.storeKeyring r))
    (hfork : (w.devices d).session.key ≠ none → Unforked w d) :
    ∃ keys', Grows keys keys' running d (.storeKeyring r) w
      (effect entropy d (.storeKeyring r) w) := by
  rcases hdoes.2 with ⟨hfile, ⟨hkey, hread⟩ | ⟨key, hkey, rfl⟩⟩ |
    ⟨r₀, hfile, ⟨hkey, copy, hcopy, rfl⟩ | ⟨key, hkey, rfl⟩⟩
  · refine ⟨keys, h.write hrun List.prefix_rfl (h.reads d hrun r hread) ?_ (.inl rfl)
      fun hsome => absurd hkey hsome⟩
    rw [hfile]
    exact Nat.zero_le _
  · have hall := h.has_all (hfork (by rw [hkey]; exact nofun))
    rw [hfile] at hall
    obtain rfl : keys = [] := List.length_eq_zero_iff.mp hall.symm
    refine ⟨[key], h.write hrun (List.nil_prefix) .fromLegacy ?_ (.inr newestGen_fromLegacy)
      fun _ => newestGen_fromLegacy⟩
    rw [hfile]
    exact Nat.zero_le _
  · refine ⟨keys, h.write hrun List.prefix_rfl
      ((h.files d r₀ hfile).union (h.reads d hrun copy hcopy)) ?_ (.inl rfl)
      fun hsome => absurd hkey hsome⟩
    rw [hfile, Keyring.newestGen_unionFrom]
    exact Nat.le_max_left _ _
  · have hfork := hfork (by rw [hkey]; exact nofun)
    have hall := h.has_all hfork
    rw [hfile] at hall
    have hlt := hfork.1 r₀ hfile
    have hnewest : (r₀.rotate key).newestGen = (keys ++ [key]).length := by
      rw [Keyring.newestGen_rotate hlt, List.length_append, ← hall]
      rfl
    refine ⟨keys ++ [key], h.write hrun (List.prefix_append _ _)
      ((h.files d r₀ hfile).rotate hall hlt) ?_ (.inr hnewest) fun _ => hnewest⟩
    rw [hfile, Keyring.newestGen_rotate hlt]
    exact Nat.le_succ _

/-- **A call moves the rings along one sequence**, when what is minted is new. -/
theorem Rings.effect (h : Rings keys w running) (hrun : running d)
    (hdoes : Does edVerify (w.devices d) op)
    (hfork : (∃ r, op = .storeKeyring r) → (w.devices d).session.key ≠ none → Unforked w d) :
    ∃ keys', Grows keys keys' running d op w (effect entropy d op w) := by
  cases op with
  | storeKeyring r => exact h.store hrun hdoes (hfork ⟨r, rfl⟩)
  | putWrappedKey user wrap =>
    refine ⟨keys, h.quiet nofun (fun user' wrap' hwrap => ?_) fun hrun => ?_⟩
    · change (w.relay.wraps.insert user wrap)[user']? = _ at hwrap
      rw [getElem?_insert_eq] at hwrap
      split at hwrap
      · cases hwrap
        exact h.files d _ hdoes.1
      · exact h.wraps user' wrap' hwrap
    · rw [effect_devices]
      exact h.reads d hrun
  | deleteWrappedKey user =>
    refine ⟨keys, h.quiet nofun (fun user' wrap' hwrap => ?_) fun hrun => ?_⟩
    · change (w.relay.wraps.erase user)[user']? = _ at hwrap
      rw [getElem?_erase_eq] at hwrap
      split at hwrap
      · cases hwrap
      · exact h.wraps user' wrap' hwrap
    · rw [effect_devices]
      exact h.reads d hrun
  | loadKeyring =>
    refine ⟨keys, h.quiet nofun h.wraps fun hrun => ?_⟩
    rw [effect_devices]
    dsimp only [KeyDevice.after, Session.after]
    split
    · rename_i r hfile
      exact List.forall_mem_cons.mpr ⟨h.files d r hfile, h.reads d hrun⟩
    · exact h.reads d hrun
    · exact h.reads d hrun
  | getMyWrappedKey =>
    refine ⟨keys, h.quiet nofun h.wraps fun hrun => ?_⟩
    rw [effect_devices]
    dsimp only [KeyDevice.after, Session.after]
    split
    · rename_i wrap hwrap
      exact List.forall_mem_cons.mpr ⟨h.wraps _ wrap hwrap, h.reads d hrun⟩
    · exact h.reads d hrun
  | random | getWorkspace | teamMembers | loadWrappedMembers | storeWrappedMembers
  | localUserKeypair | loadKnownKeys | saveKnownKeys =>
    refine ⟨keys, h.quiet nofun h.wraps fun hrun => ?_⟩
    rw [effect_devices]
    exact h.reads d hrun

end

/-! ## Passes and the last wraps -/

section
variable {D K : Type}

/-- The last wrap that was put for a user. -/
def lastGiven (given : List (Given D K)) (user : Text) : Option (Given D K) :=
  given.find? (·.user = user)

/-- A pass under way, that began after these heads were committed: once it has rotated, its ring has
their generations, and so does every wrap that it put and nobody has replaced. -/
structure Joining (d : D) (v : KeyDevice K) (members : List MemberInfo) (given : List (Given D K))
    (heads began : List (SealedHead D K)) : Prop where
  lists : ∀ l ∈ v.session.lists, ∀ m ∈ members, m ∈ l
  committed : ∀ h ∈ began, h ∈ heads
  rotated : v.session.rotated = true → ∀ h ∈ began, h.generation ≤ v.file.newest
  wrapped : v.session.rotated = true → ∀ user ∈ v.session.wrapped, ∃ g,
    lastGiven given user = some g ∧ (g.device = d → ∀ h ∈ began, h.generation ≤ g.ring.newestGen)
  recorded : v.session.recorded = true → v.session.rotated = true →
    ∀ m ∈ members, m.user ∈ v.session.wrapped

variable {d : D} {v : KeyDevice K} {members : List MemberInfo} {given : List (Given D K)}
  {heads began : List (SealedHead D K)} {g : Given D K} {user : Text}

theorem lastGiven_cons :
    lastGiven (g :: given) user = if g.user = user then some g else lastGiven given user := by
  unfold lastGiven
  rw [List.find?_cons]
  by_cases h : g.user = user <;> simp [h]

/-- A wrap that another device puts. -/
theorem Joining.give (h : Joining d v members given heads began) (hg : g.device ≠ d) :
    Joining d v members (g :: given) heads began where
  lists := h.lists
  committed := h.committed
  rotated := h.rotated
  wrapped hrot user huser := by
    rw [lastGiven_cons]
    split
    · exact ⟨g, rfl, fun hd => absurd hd hg⟩
    · exact h.wrapped hrot user huser
  recorded := h.recorded

/-- Members leave, and heads are committed. -/
theorem Joining.mono {members' : List MemberInfo} {heads' : List (SealedHead D K)}
    (h : Joining d v members given heads began) (hmembers : ∀ m ∈ members', m ∈ members)
    (hheads : ∀ x ∈ heads, x ∈ heads') : Joining d v members' given heads' began where
  lists l hl m hm := h.lists l hl m (hmembers m hm)
  committed x hx := hheads x (h.committed x hx)
  rotated := h.rotated
  wrapped := h.wrapped
  recorded hrec hrot m hm := h.recorded hrec hrot m (hmembers m hm)

end

section
variable {D K : Type} [DecidableEq D] [DecidableEq K] {entropy : Nat → K}
  {edVerify : Bytes → Bytes → Bytes → Bool} {keys keys' : List K} {w : KeyWorld D K}
  {running : D → Prop} {d : D} {op : PassOp K} {heads began : List (SealedHead D K)}

/-- What a call of a pass needs: what it mints is new, and every member's bundle passes the checks
when a rotation ends. -/
def Orderly (edVerify : Bytes → Bytes → Bytes → Bool) (w : KeyWorld D K) (d : D) :
    PassOp K → Prop
  | .storeKeyring _ => (w.devices d).session.key ≠ none → Unforked w d
  | .storeWrappedMembers _ => (w.devices d).session.rotated = true →
    ∀ m ∈ w.relay.members, WrapsTo edVerify (w.devices d).pins m
  | _ => True

omit [DecidableEq D] in
/-- A stored ring. -/
theorem Joining.store {v : KeyDevice K} {r : Keyring K} {relay : KeyRelay K} {drawn : Nat}
    {members : List MemberInfo} {given : List (Given D K)}
    (h : Joining d v members given heads began) (hdoes : Does edVerify v (.storeKeyring r))
    (hgrow : v.file.newest ≤ r.newestGen)
    (hmint : v.session.key ≠ none → ∀ x ∈ heads, x.generation ≤ r.newestGen) :
    Joining d (v.after entropy relay drawn (.storeKeyring r)) members given heads began := by
  obtain ⟨⟨hwrapped, hrecorded⟩, -⟩ := hdoes
  cases hkey : v.session.key with
  | none =>
    have hsession : (v.after entropy relay drawn (.storeKeyring r)).session = v.session := by
      dsimp only [KeyDevice.after, Session.after]
      rw [hkey]
    refine ⟨?_, h.committed, ?_, ?_, ?_⟩ <;> rw [hsession]
    · exact h.lists
    · exact fun hrot x hx => (h.rotated hrot x hx).trans hgrow
    · exact h.wrapped
    · exact h.recorded
  | some key =>
    have hsession : (v.after entropy relay drawn (.storeKeyring r)).session = { v.session with
        key := none, minted := v.file.mints :: v.session.minted,
        rotated := v.session.rotated || v.file.isRing } := by
      dsimp only [KeyDevice.after, Session.after]
      rw [hkey]
    refine ⟨?_, h.committed, ?_, ?_, ?_⟩ <;> rw [hsession]
    · exact h.lists
    · exact fun _ x hx => hmint (by rw [hkey]; exact nofun) x (h.committed x hx)
    · intro _ user huser
      rw [show v.session.wrapped = [] from hwrapped] at huser
      cases huser
    · intro hrec
      rw [show v.session.recorded = false from hrecorded] at hrec
      cases hrec

/-- **A call of the device's own pass.** -/
theorem Joining.effect
    (h : Joining d (w.devices d) w.relay.members w.given heads began)
    (hdoes : Does edVerify (w.devices d) op) (horder : Orderly edVerify w d op)
    (hgrow : (w.devices d).file.newest ≤ ((effect entropy d op w).devices d).file.newest)
    (hmint : ∀ r, op = .storeKeyring r → (w.devices d).session.key ≠ none →
      ∀ x ∈ heads, x.generation ≤ ((effect entropy d op w).devices d).file.newest) :
    Joining d ((effect entropy d op w).devices d) (effect entropy d op w).relay.members
      (effect entropy d op w).given heads began := by
  rw [effect_devices] at hgrow hmint ⊢
  cases op with
  | storeKeyring r => exact h.store hdoes hgrow (hmint r rfl)
  | putWrappedKey user wrap =>
    obtain ⟨hfile, hrecorded, -⟩ := hdoes
    refine ⟨h.lists, h.committed, h.rotated, fun hrot user' huser' => ?_, fun hrec => ?_⟩
    · show ∃ g, lastGiven (⟨d, user, wrap.ring⟩ :: w.given) user' = some g ∧ _
      rw [lastGiven_cons]
      split
      · refine ⟨_, rfl, fun _ x hx => ?_⟩
        have := h.rotated hrot x hx
        rwa [hfile] at this
      · rename_i hne
        rcases List.mem_append.mp huser' with huser' | huser'
        · exact h.wrapped hrot user' huser'
        · exact absurd (List.mem_singleton.mp huser').symm hne
    · exact absurd (hrecorded.symm.trans hrec) Bool.false_ne_true
  | storeWrappedMembers users =>
    obtain ⟨-, -, ⟨listed, hlisted, hcovers⟩, -⟩ := hdoes
    exact ⟨h.lists, h.committed, h.rotated, h.wrapped, fun _ hrot m hm =>
      hcovers m (h.lists listed hlisted m hm) (horder hrot m hm)⟩
  | teamMembers team =>
    exact ⟨List.forall_mem_cons.mpr ⟨fun m hm => hm, h.lists⟩, h.committed, h.rotated, h.wrapped,
      h.recorded⟩
  | loadKeyring | getMyWrappedKey =>
    dsimp only [KeyDevice.after, Session.after]
    split <;> exact ⟨h.lists, h.committed, h.rotated, h.wrapped, h.recorded⟩
  | random | getWorkspace | loadWrappedMembers | localUserKeypair | deleteWrappedKey
  | loadKnownKeys | saveKnownKeys =>
    exact ⟨h.lists, h.committed, h.rotated, h.wrapped, h.recorded⟩

end

/-! ## Fleets -/

section
variable {D K : Type} [DecidableEq D] [DecidableEq K] {entropy : Nat → K}
  {edVerify : Bytes → Bytes → Bytes → Bool} {sealable : Bytes → Bool} {keys : List K}
  {s s' : KeyFleet D K} {e : KeyEvent D} {d : D}

/-- The condition on the events of a fleet: no keyring file is torn, the team only loses members,
and the calls of the passes are orderly. -/
def NoFork (edVerify : Bytes → Bytes → Bytes → Bool) (s : KeyFleet D K) : KeyEvent D → Prop
  | .serve _ => False
  | .tick d t => t ≠ .fault .torn ∧ ∀ kind op k, s.pass d = some (kind, .call op k) →
    Orderly edVerify s.world d op
  | .start _ _ _ | .finish _ | .stop _ | .publish _ | .remove _ => True

variable (entropy edVerify) in
/-- What holds of a fleet whose rings follow one sequence of keys. -/
structure Straight (keys : List K) (s : KeyFleet D K) : Prop where
  sound : Sound entropy edVerify s
  team : s.world.relay.team ≠ none
  rings : Rings keys s.world fun d => s.pass d ≠ none
  loops : ∀ d ring, s.loop d = some ring →
    Follows keys ring ∧ ring.newestGen ≤ (s.world.devices d).file.newest
  heads : ∀ h ∈ s.heads, 1 ≤ h.generation ∧
    h.generation ≤ (s.world.devices h.device).file.newest ∧ keys[h.generation - 1]? = some h.key
  passes : ∀ d, s.pass d ≠ none →
    Joining d (s.world.devices d) s.world.relay.members s.world.given s.heads (s.began d)
  merged : ∀ d, ∀ h ∈ s.merged d, h ∈ s.heads ∧
    h.generation ≤ (s.world.devices d).file.newest
  last : ∀ m ∈ s.world.relay.members, ∀ g, lastGiven s.world.given m.user = some g →
    (∃ wrap, s.world.relay.wraps[m.user]? = some wrap ∧ wrap.ring = g.ring) ∧
    ∀ h ∈ s.merged g.device, h.generation ≤ g.ring.newestGen
  covered : ∀ m ∈ s.world.relay.members, ∀ d, s.merged d ≠ [] →
    lastGiven s.world.given m.user ≠ none

/-- No head is above the sequence. -/
theorem Straight.head_le (h : Straight entropy edVerify keys s) :
    ∀ x ∈ s.heads, x.generation ≤ keys.length :=
  fun x hx => (h.heads x hx).2.1.trans (h.rings.newest_le x.device)

/-- The last wraps after a call. -/
theorem Straight.last_call {op : PassOp K} (h : Straight entropy edVerify keys s)
    (hrun : s.pass d ≠ none) (hdoes : Does edVerify (s.world.devices d) op) :
    ∀ m ∈ s.world.relay.members, ∀ g,
      lastGiven (effect entropy d op s.world).given m.user = some g →
      (∃ wrap, (effect entropy d op s.world).relay.wraps[m.user]? = some wrap ∧
        wrap.ring = g.ring) ∧ ∀ x ∈ s.merged g.device, x.generation ≤ g.ring.newestGen := by
  intro m hm g hg
  cases op with
  | putWrappedKey user wrap =>
    change lastGiven (⟨d, user, wrap.ring⟩ :: s.world.given) m.user = some g at hg
    show (∃ wrap', (s.world.relay.wraps.insert user wrap)[m.user]? = some wrap' ∧ _) ∧ _
    rw [lastGiven_cons] at hg
    rw [getElem?_insert_eq]
    split at hg
    · rename_i huser
      cases hg
      rw [if_pos huser]
      refine ⟨⟨wrap, rfl, rfl⟩, fun x hx => ?_⟩
      have := (h.merged d x hx).2
      rwa [hdoes.1] at this
    · rename_i huser
      rw [if_neg huser]
      exact h.last m hm g hg
  | deleteWrappedKey user =>
    obtain ⟨listed, hlisted, huser⟩ := hdoes
    have hne : user ≠ m.user := by
      rintro rfl
      exact huser (List.mem_map_of_mem ((h.passes d hrun).lists listed hlisted m hm))
    show (∃ wrap', (s.world.relay.wraps.erase user)[m.user]? = some wrap' ∧ _) ∧ _
    rw [getElem?_erase_eq, if_neg hne]
    exact h.last m hm g hg
  | _ => exact h.last m hm g hg

/-- A call of a pass. -/
theorem Straight.call {kind : PassKind} {op : PassOp K}
    {k : op.Ret → Pass K (Keyring K × RotationReport)} {p : Pass K (Keyring K × RotationReport)}
    (h : Straight entropy edVerify keys s) (hp : s.pass d = some (kind, .call op k))
    (hdoes : Does edVerify (s.world.devices d) op) (horder : Orderly edVerify s.world d op)
    (hsound : Sound entropy edVerify { s with
      world := effect entropy d op s.world
      pass := Function.update s.pass d (some (kind, p)) }) :
    ∃ keys', Straight entropy edVerify keys' { s with
      world := effect entropy d op s.world
      pass := Function.update s.pass d (some (kind, p)) } := by
  have hrun : s.pass d ≠ none := by
    rw [hp]
    exact nofun
  have hpass : ∀ d', Function.update s.pass d (some (kind, p)) d' ≠ none → s.pass d' ≠ none := by
    intro d' hne
    by_cases hd : d' = d
    · exact hd ▸ hrun
    · rwa [Function.update_of_ne hd] at hne
  have hgrows : ∃ keys', Grows keys keys' (fun d => s.pass d ≠ none) d op s.world
      (effect entropy d op s.world) := by
    refine h.rings.effect hrun hdoes ?_
    rintro ⟨r, rfl⟩
    exact horder
  obtain ⟨keys', hrings, hpre, hfiles, hminted⟩ := hgrows
  obtain ⟨more, hmore⟩ := hpre
  have hlookup : ∀ (i : Nat) key, keys[i]? = some key → keys'[i]? = some key := by
    intro i key hi
    rw [← hmore, List.getElem?_append_left (List.getElem?_eq_some_iff.mp hi).1, hi]
  have hmembers : (effect entropy d op s.world).relay.members = s.world.relay.members :=
    Touched.members_eq (.inr (.inl rfl))
  refine ⟨keys', hsound, by rw [effect_team]; exact h.team, ?_, ?_, ?_, ?_, ?_, ?_, ?_⟩
  · exact ⟨hrings.files, hrings.wraps, fun d' hne => hrings.reads d' (hpass d' hne), hrings.all⟩
  · intro d' ring hring
    obtain ⟨hfollows, hle⟩ := h.loops d' ring hring
    exact ⟨hfollows.mono ⟨more, hmore⟩, hle.trans (hfiles d')⟩
  · intro x hx
    obtain ⟨h1, hle, hkey⟩ := h.heads x hx
    exact ⟨h1, hle.trans (hfiles x.device), hlookup _ _ hkey⟩
  · intro d' hne
    by_cases hd : d' = d
    · subst hd
      refine (h.passes d' hrun).effect hdoes horder (hfiles d') fun r hr hkey x hx => ?_
      rw [hminted r hr hkey, ← hmore, List.length_append]
      exact (h.head_le x hx).trans (Nat.le_add_right _ _)
    · have hother := (h.passes d' (hpass d' hne)).mono (fun m hm => hm) fun x hx => hx
      simp only [effect_devices_ne hd, hmembers]
      cases op with
      | putWrappedKey user wrap => exact hother.give (Ne.symm hd)
      | _ => exact hother
  · exact fun d' x hx => ⟨(h.merged d' x hx).1, (h.merged d' x hx).2.trans (hfiles d')⟩
  · simp only [hmembers]
    exact h.last_call hrun hdoes
  · simp only [hmembers]
    intro m hm d' hne
    cases op with
    | putWrappedKey user wrap =>
      dsimp only [effect]
      rw [lastGiven_cons]
      split
      · exact nofun
      · exact h.covered m hm d' hne
    | _ => exact h.covered m hm d' hne

/-- A pass that ends without a result, or goes on without an effect. -/
theorem Straight.of_pass
    {pass : D → Option (PassKind × Pass K (Keyring K × RotationReport))}
    (h : Straight entropy edVerify keys s) (hsound : Sound entropy edVerify { s with pass := pass })
    (hpass : ∀ d, pass d ≠ none → s.pass d ≠ none) :
    Straight entropy edVerify keys { s with pass := pass } :=
  ⟨hsound, h.team, ⟨h.rings.files, h.rings.wraps, fun d hne => h.rings.reads d (hpass d hne),
    h.rings.all⟩, h.loops, h.heads, fun d hne => h.passes d (hpass d hne), h.merged, h.last,
    h.covered⟩

/-- A pass that starts. -/
theorem Straight.start {kind : PassKind} {p : Pass K (Keyring K × RotationReport)}
    (h : Straight entropy edVerify keys s)
    (hsound : Sound entropy edVerify { s.startLoop d kind with
      world := s.world.renew d
      pass := Function.update s.pass d (some (kind, p))
      began := Function.update s.began d s.heads }) :
    Straight entropy edVerify keys { s.startLoop d kind with
      world := s.world.renew d
      pass := Function.update s.pass d (some (kind, p))
      began := Function.update s.began d s.heads } := by
  have hfile : ∀ d', ((s.world.renew d).devices d').file = (s.world.devices d').file := by
    intro d'
    dsimp only [KeyWorld.renew]
    by_cases hd : d' = d
    · rw [hd, Function.update_self]
    · rw [Function.update_of_ne hd]
  have hnew : ((s.world.renew d).devices d).session = {} := by
    dsimp only [KeyWorld.renew]
    rw [Function.update_self]
  have hold : ∀ d', d' ≠ d → (s.world.renew d).devices d' = s.world.devices d' :=
    fun d' hd => Function.update_of_ne hd _ _
  have hheads : (s.startLoop d kind).heads = s.heads := by cases kind <;> rfl
  have hmerged : (s.startLoop d kind).merged = s.merged := by cases kind <;> rfl
  refine ⟨hsound, h.team, ⟨fun d' r hr => h.rings.files d' r (hfile d' ▸ hr), h.rings.wraps,
    fun d' hne => ?_, ?_⟩, fun d' ring hring => ?_, ?_, fun d' hne => ?_, ?_, ?_, ?_⟩
  · by_cases hd : d' = d
    · subst hd
      simp only [hnew]
      exact nofun
    · simp only [Function.update_of_ne hd] at hne
      simp only [hold d' hd]
      exact h.rings.reads d' hne
  · simp only [hfile]
    exact h.rings.all
  · simp only [hfile]
    refine h.loops d' ring ?_
    cases kind with
    | rekey => exact hring
    | converge existed =>
      dsimp only [KeyFleet.startLoop] at hring
      by_cases hd : d' = d
      · rw [hd, Function.update_self] at hring
        cases hring
      · rwa [Function.update_of_ne hd] at hring
  · simp only [hheads, hfile]
    exact h.heads
  · by_cases hd : d' = d
    · subst hd
      simp only [Function.update_self, hheads]
      refine ⟨?_, fun x hx => hx, ?_, ?_, ?_⟩ <;> rw [hnew] <;> exact nofun
    · simp only [Function.update_of_ne hd] at hne ⊢
      simp only [hold d' hd, hheads]
      exact h.passes d' hne
  · simp only [hmerged, hheads, hfile]
    exact h.merged
  · simp only [hmerged]
    exact h.last
  · simp only [hmerged]
    exact h.covered

/-- A pass that returns. -/
theorem Straight.returned {kind : PassKind} {ring : Keyring K} {report : RotationReport}
    (h : Straight entropy edVerify keys s) (hp : s.pass d = some (kind, .done (ring, report)))
    (hsound : Sound entropy edVerify (s.returned d kind ring)) :
    Straight entropy edVerify keys (s.returned d kind ring) := by
  have hrun : s.pass d ≠ none := by
    rw [hp]
    exact nofun
  have hfin := h.sound.finished hp
  have hrec := hfin.recorded.resolve_left h.team
  have hpass := h.passes d hrun
  -- What a device has caught up with: after a rotation, what there was when its pass began.
  have hmerged : ∀ d', (s.returned d kind ring).merged d' = s.merged d' ∨ d' = d ∧
      (s.world.devices d).session.rotated = true ∧
      (s.returned d kind ring).merged d' = s.began d := by
    intro d'
    dsimp only [KeyFleet.returned]
    split
    · rename_i hrot
      by_cases hd : d' = d
      · exact .inr ⟨hd, hrot, by rw [hd, Function.update_self]⟩
      · exact .inl (Function.update_of_ne hd _ _)
    · exact .inl rfl
  refine ⟨hsound, h.team, ⟨h.rings.files, h.rings.wraps, fun d' hne => h.rings.reads d' ?_,
    h.rings.all⟩, fun d' ring' hring => ?_, h.heads, fun d' hne => h.passes d' ?_,
    fun d' x hx => ?_, fun m hm g hg => ?_, fun m hm d' hne => ?_⟩
  · exact pass_ne_of_update_none hne
  · cases kind with
    | rekey => exact h.loops d' ring' hring
    | converge existed =>
      dsimp only [KeyFleet.returned] at hring ⊢
      by_cases hd : d' = d
      · subst hd
        rw [Function.update_self] at hring
        cases hring
        rw [hfin.file]
        exact ⟨h.rings.files d' ring hfin.file, le_rfl⟩
      · rw [Function.update_of_ne hd] at hring
        exact h.loops d' ring' hring
  · exact pass_ne_of_update_none hne
  · rcases hmerged d' with heq | ⟨rfl, hrot, heq⟩
    · rw [heq] at hx
      exact h.merged d' x hx
    · rw [heq] at hx
      exact ⟨hpass.committed x hx, hpass.rotated hrot x hx⟩
  · refine ⟨(h.last m hm g hg).1, fun x hx => ?_⟩
    rcases hmerged g.device with heq | ⟨hd, hrot, heq⟩
    · rw [heq] at hx
      exact (h.last m hm g hg).2 x hx
    · rw [heq] at hx
      obtain ⟨g', hg', hle⟩ := hpass.wrapped hrot m.user (hpass.recorded hrec hrot m hm)
      obtain rfl : g' = g := Option.some.inj (hg'.symm.trans hg)
      exact hle hd x hx
  · rcases hmerged d' with heq | ⟨hd, hrot, -⟩
    · rw [heq] at hne
      exact h.covered m hm d' hne
    · obtain ⟨g, hg, -⟩ := hpass.wrapped hrot m.user (hpass.recorded hrec hrot m hm)
      show lastGiven s.world.given m.user ≠ none
      rw [hg]
      exact nofun

/-- **One step keeps the rings on one sequence of keys.** -/
theorem Straight.step (h : Straight entropy edVerify keys s) (hok : NoFork edVerify s e)
    (hs : fleetStep entropy edVerify sealable s e = some s') :
    ∃ keys', Straight entropy edVerify keys' s' := by
  have hsound := h.sound.step hs
  cases e with
  | serve => exact hok.elim
  | tick d t =>
    obtain ⟨kind, op, k, p, w, hp, hdoes, -, rfl, -, huntorn⟩ := h.sound.tick hs
    rcases huntorn hok.1 with rfl | rfl
    · refine ⟨keys, h.of_pass hsound fun d' hne => ?_⟩
      by_cases hd : d' = d
      · rw [hd, hp]
        exact nofun
      · rwa [Function.update_of_ne hd] at hne
    · exact h.call hp hdoes (hok.2 kind op k hp) hsound
  | start d kind name =>
    dsimp only [fleetStep] at hs
    split at hs
    · cases hs
    · cases hs
      exact ⟨keys, h.start hsound⟩
  | finish d =>
    dsimp only [fleetStep] at hs
    split at hs
    · rename_i hp
      cases hs
      exact ⟨keys, h.returned hp hsound⟩
    · cases hs
      exact ⟨keys, h.of_pass hsound fun _ hne => pass_ne_of_update_none hne⟩
    · cases hs
    · cases hs
  | stop d =>
    cases hs
    exact ⟨keys, h.of_pass hsound fun _ hne => pass_ne_of_update_none hne⟩
  | publish d =>
    obtain ⟨ring, hring, rfl⟩ := Option.map_eq_some_iff.mp hs
    obtain ⟨hfollows, hle⟩ := h.loops d ring hring
    refine ⟨keys, hsound, h.team, h.rings, h.loops, List.forall_mem_cons.mpr
      ⟨⟨hfollows.bounds.1, hle, ?_⟩, h.heads⟩, fun d' hne => (h.passes d' hne).mono
      (fun _ hm => hm) fun _ hx => List.mem_cons_of_mem _ hx, fun d' x hx =>
      ⟨List.mem_cons_of_mem _ (h.merged d' x hx).1, (h.merged d' x hx).2⟩, h.last, h.covered⟩
    exact (hfollows.lookup hfollows.bounds.1 le_rfl).symm.trans ring.newest_key
  | remove user =>
    cases hs
    have hmember : ∀ m ∈ (s.world.relay.remove user).members,
        m ∈ s.world.relay.members ∧ user ≠ m.user := by
      intro m hm
      obtain ⟨hm, hne⟩ := List.mem_filter.mp hm
      exact ⟨hm, fun h => of_decide_eq_true hne h.symm⟩
    refine ⟨keys, hsound, h.team, ⟨h.rings.files, fun user' wrap hwrap => ?_, h.rings.reads,
      h.rings.all⟩, h.loops, h.heads, fun d hne => (h.passes d hne).mono
      (fun m hm => (hmember m hm).1) fun _ hx => hx, h.merged, fun m hm g hg => ?_,
      fun m hm => h.covered m (hmember m hm).1⟩
    · change (s.world.relay.wraps.erase user)[user']? = _ at hwrap
      rw [getElem?_erase_eq] at hwrap
      split at hwrap
      · cases hwrap
      · exact h.rings.wraps user' wrap hwrap
    · show (∃ wrap, (s.world.relay.wraps.erase user)[m.user]? = some wrap ∧ _) ∧ _
      rw [getElem?_erase_eq, if_neg (hmember m hm).2]
      exact h.last m (hmember m hm).1 g hg

/-- A fleet before it races: no pass or loop runs, nothing was published or put, and the rings in
files and wraps are the first keys of one sequence, which some device has in full. -/
structure InStep (s : KeyFleet D K) : Prop where
  idle : ∀ d, s.pass d = none ∧ s.loop d = none ∧ s.merged d = []
  fresh : s.heads = [] ∧ s.world.given = []
  team : s.world.relay.team ≠ none
  rings : ∃ keys, (∀ d r, (s.world.devices d).file = .ring r → Follows keys r) ∧
    (∀ (user : Text) (wrap : Wrap K), s.world.relay.wraps[user]? = some wrap →
      Follows keys wrap.ring) ∧
    (keys ≠ [] → ∃ d, (s.world.devices d).file.newest = keys.length)

/-- **Every key that a head was sealed under stays in the ring of the device that sealed it, and
once each device has run one more rotation to its end, in the wrap of every member, who reads the
head with it**, when no device stores a generation that another one's file already has. -/
theorem heads_stay_readable {events : List (KeyEvent D)} {head : SealedHead D K}
    (hagreed : InStep s)
    (run : Run (fleetStep entropy edVerify sealable) (NoFork edVerify) s events s')
    (hhead : head ∈ s'.heads) :
    (∃ ring, (s'.world.devices head.device).file = .ring ring ∧
      ring.keys[head.generation]? = some head.key) ∧
    ((∀ d, head ∈ s'.merged d) → ∀ m ∈ s'.world.relay.members,
      ∃ wrap, s'.world.relay.wraps[m.user]? = some wrap ∧
        wrap.ring.keys[head.generation]? = some head.key ∧
        ∀ {α : Type} (attempt : K → Option α) (a : α), attempt head.key = some a →
          (∀ key, key ≠ head.key → attempt key = none) → wrap.ring.decrypt attempt = some a) := by
  obtain ⟨keys, hfiles, hwraps, hall⟩ := hagreed.rings
  have hstart : ∃ keys, Straight entropy edVerify keys s := by
    refine ⟨keys, fun d kind p hp => ?_, hagreed.team, ⟨hfiles, hwraps, fun d hne => ?_, hall⟩,
      fun d ring hring => ?_, ?_, fun d hne => ?_, fun d => ?_, fun m _ g hg => ?_,
      fun m _ d hne => ?_⟩
    · rw [(hagreed.idle d).1] at hp
      cases hp
    · exact absurd (hagreed.idle d).1 hne
    · rw [(hagreed.idle d).2.1] at hring
      cases hring
    · rw [hagreed.fresh.1]
      exact nofun
    · exact absurd (hagreed.idle d).1 hne
    · rw [(hagreed.idle d).2.2]
      exact nofun
    · rw [hagreed.fresh.2] at hg
      cases hg
    · exact absurd (hagreed.idle d).2.2 hne
  obtain ⟨keys', h⟩ := run.invariant (I := fun s => ∃ keys, Straight entropy edVerify keys s)
    (fun _ _ _ hi hok hs => hi.elim fun _ h => h.step hok hs) hstart
  obtain ⟨h1, hle, hkey⟩ := h.heads head hhead
  refine ⟨?_, fun hmerged m hm => ?_⟩
  · cases hfile : (s'.world.devices head.device).file with
    | ring r =>
      rw [hfile] at hle
      exact ⟨r, rfl, ((h.rings.files _ r hfile).lookup h1 hle).trans hkey⟩
    | missing | torn =>
      rw [hfile] at hle
      exact absurd (h1.trans hle) (Nat.not_succ_le_zero 0)
  · obtain ⟨g, hg⟩ := Option.ne_none_iff_exists'.mp
      (h.covered m hm head.device (List.ne_nil_of_mem (hmerged head.device)))
    obtain ⟨⟨wrap, hwrap, hring⟩, hhas⟩ := h.last m hm g hg
    have hholds : wrap.ring.keys[head.generation]? = some head.key :=
      ((h.rings.wraps _ wrap hwrap).lookup h1
        (hring ▸ hhas head (hmerged g.device))).trans hkey
    exact ⟨wrap, hwrap, hholds, fun attempt a ha hother =>
      Keyring.decrypt_eq_some hholds ha hother⟩

end

/-! ## Two runs -/

/-- Two writers with one ring and one user's identity, and this record of whom they wrapped. -/
def racers (record : Option Users) : KeyFleet Bool Nat where
  world :=
    { devices := fun _ =>
        { file := .ring (.fromLegacy 7), record := record, pins := ∅,
          keypairs := fun _ => some (List.replicate 32 0), account := ['a'] }
      relay := { team := some [], members := [bundleOf ['a'] '0'], wraps := ∅ } }

/-- So many calls of one of them. -/
def calls (d : Bool) (n : Nat) : List (KeyEvent Bool) := List.replicate n (.tick d .go)

/-- `NoFork`, as a check. -/
def noFork (s : KeyFleet Bool Nat) : KeyEvent Bool → Bool
  | .serve _ | .tick _ (.fault _) | .tick _ (.act _) => false
  | .tick d .go => match s.pass d with
    | some (_, .call (.storeKeyring _) _) => (s.world.devices d).session.key.isNone ||
      ((match (s.world.devices d).file with
        | .ring r => decide (r.newestGen + 1 < 2 ^ 32)
        | .missing | .torn => true) &&
      match (s.world.devices !d).file with
        | .ring r => !r.keys.contains (s.world.devices d).file.mints
        | .missing | .torn => true)
    | some (_, .call (.storeWrappedMembers _) _) => s.world.relay.members.all fun m =>
      match classifyMember (fun _ _ _ => true) (s.world.devices d).pins m with
      | some (.wrap _ _) => true
      | _ => false
    | _ => true
  | .start _ _ _ | .finish _ | .stop _ | .publish _ | .remove _ => true

theorem noFork_of_check (s : KeyFleet Bool Nat) (e : KeyEvent Bool) (h : noFork s e = true) :
    NoFork (fun _ _ _ => true) s e := by
  cases e with
  | serve members => cases h
  | start d kind name | finish d | stop d | publish d | remove user => trivial
  | tick d t =>
    cases t with
    | fault f | act a => cases h
    | go =>
      refine ⟨nofun, fun kind op k hp => ?_⟩
      rw [noFork, hp] at h
      cases op with
      | storeKeyring r =>
        intro hkey
        dsimp only at h
        rw [Bool.or_eq_true, Option.isNone_iff_eq_none, Bool.and_eq_true] at h
        obtain ⟨hlt, hother⟩ := h.resolve_left hkey
        refine ⟨fun r hr => ?_, fun d' r hd hr => ?_⟩
        · rw [hr] at hlt
          exact of_decide_eq_true hlt
        · obtain rfl : d' = !d := by cases d <;> cases d' <;> simp at hd ⊢
          rw [hr] at hother
          intro hmem
          rw [Std.ExtTreeMap.mem_iff_contains] at hmem
          simp [hmem] at hother
      | storeWrappedMembers users =>
        intro _ m hm
        have hwraps := List.all_eq_true.mp h m hm
        split at hwraps
        · rename_i x25519 firstSight hclass
          exact ⟨x25519, firstSight, hclass⟩
        · cases hwraps
      | _ => trivial

theorem inStep_racers (record : Option Users) : InStep (racers record) := by
  refine ⟨fun _ => ⟨rfl, rfl, rfl⟩, ⟨rfl, rfl⟩, Option.some_ne_none _, [7], fun d r hr => ?_,
    fun user wrap hwrap => ?_, fun _ => ⟨true, newestGen_fromLegacy⟩⟩
  · cases hr
    exact .fromLegacy
  · rw [show (racers record).world.relay.wraps = ∅ from rfl, Std.ExtTreeMap.getElem?_empty] at hwrap
    cases hwrap

/-- A head is committed, then each device rotates, one after the other. -/
theorem heads_stay_readable_in_turn :
    ∃ s : KeyFleet Bool Nat, ∃ head ∈ s.heads, ∃ wrap,
      s.world.relay.wraps[['a']]? = some wrap ∧
        wrap.ring.keys[head.generation]? = some head.key := by
  have hrun : (replay (fun s e => if noFork s e then plainSteps s e else none) (racers none)
      (.start false (.converge true) (some ['a']) :: calls false 10 ++ [.finish false,
        .publish false, .start true .rekey (some ['a'])] ++ calls true 14 ++ [.finish true,
        .start false .rekey (some ['a'])] ++ calls false 14 ++ [.finish false])).map (fun s =>
      ([s.heads, s.merged true, s.merged false], s.world.relay.members)) =
      some ([[⟨false, 1, 7⟩], [⟨false, 1, 7⟩], [⟨false, 1, 7⟩]], [bundleOf ['a'] '0']) := by
    decide +kernel
  obtain ⟨s, hs, hfacts⟩ := Option.map_eq_some_iff.mp hrun
  obtain ⟨hlists, hmembers⟩ := Prod.mk.inj hfacts
  obtain ⟨hheads, hlists⟩ := List.cons.inj hlists
  obtain ⟨htrue, hlists⟩ := List.cons.inj hlists
  obtain ⟨hfalse, -⟩ := List.cons.inj hlists
  have hhead : ⟨false, 1, 7⟩ ∈ s.heads := hheads ▸ List.mem_cons_self
  obtain ⟨-, hreads⟩ := heads_stay_readable (inStep_racers none)
    (.of_replay_if noFork_of_check hs) hhead
  obtain ⟨wrap, hwrap, hholds, -⟩ := hreads
    (fun d => match d with
      | true => htrue ▸ List.mem_cons_self
      | false => hfalse ▸ List.mem_cons_self)
    (bundleOf ['a'] '0') (hmembers ▸ List.mem_cons_self)
  exact ⟨s, _, hhead, wrap, hwrap, hholds⟩

/-- **Two devices that race mint two keys for one generation**, and the merge of the first one drops
its own, under which it had sealed a head. -/
theorem racing_rotations_strand :
    ∃ s, Run plainSteps SameTeam (racers (some (.ofList [['b']] compare)))
      (.start true (.converge true) (some ['a']) :: calls true 6 ++
        .start false (.converge true) (some ['a']) :: calls false 15 ++ [.finish false,
        .publish false] ++ calls true 9 ++ [.finish true, .start false .rekey (some ['a'])] ++
        calls false 7) s ∧
      ∃ head ∈ s.heads, ¬ ∃ ring, (s.world.devices head.device).file = .ring ring ∧
        ring.keys[head.generation]? = some head.key := by
  have hrun : (replay plainSteps (racers (some (.ofList [['b']] compare)))
      (.start true (.converge true) (some ['a']) :: calls true 6 ++
        .start false (.converge true) (some ['a']) :: calls false 15 ++ [.finish false,
        .publish false] ++ calls true 9 ++ [.finish true, .start false .rekey (some ['a'])] ++
        calls false 7)).map (fun s => (s.heads, match (s.world.devices false).file with
          | .ring r => r.keys[2]?
          | .missing | .torn => none)) = some ([⟨false, 2, 0⟩], some 1) := by
    decide +kernel
  obtain ⟨s, hs, hfacts⟩ := Option.map_eq_some_iff.mp hrun
  obtain ⟨hheads, hkey⟩ := Prod.mk.inj hfacts
  refine ⟨s, .of_replay (sameTeam_of_check (by decide)) hs, ⟨false, 2, 0⟩,
    hheads ▸ List.mem_cons_self, ?_⟩
  rintro ⟨ring, hfile, hring⟩
  rw [hfile] at hkey
  dsimp only at hkey hring
  rw [hkey] at hring
  cases hring

end Pear
