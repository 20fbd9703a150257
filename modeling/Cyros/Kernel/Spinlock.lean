import Mathlib.Data.Fintype.Basic
import Cyros.Lib.Run

/-!
# The spinlock on more than one core

`spinlock::lock`, `try_lock` and `unlock`, taken apart into their single accesses: mask interrupts,
test-and-set the flag, store the token, clear the flag, read the token, restore the mask.  Any number
of contexts (threads and interrupt handlers) run on any number of cores; a core runs one context at a
time and changes it only while its interrupts are not masked.

The token lives in the lock object.  Only the holder writes it, but `unlock` reads it *after* it has
cleared the flag, so the next holder's token may already be there.  `unlock_restores_contender` is
that run.  `unlock_restores_own` says that this is the only way: in a run in which no token is stored
between another context's clear and its read (or the two tokens agree), each release restores the mask
its own acquire found, and so does each failed `try_lock`.  The lock excludes in every run (`lock_excludes`).
-/

namespace Cyros.Kernel.Spinlock

open Cyros.Lib

/-- Where a context stands in an operation on the lock.  `saved` is the local of `lock` and
`try_lock`; after the acquire only the lock's own `token` is left of it. -/
inductive Place (Mask : Type) where
  | outside
  | spinning (saved : Mask)
  | trying (saved : Mask)
  | taken (saved : Mask)
  | failed (saved : Mask)
  | holding
  | dropped
  | restoring (token : Mask)
  deriving DecidableEq, Repr

/-- Between a successful take and its drop. -/
def Place.inside {Mask : Type} : Place Mask → Bool
  | .taken _ | .holding => true
  | _ => false

/-- Which core a context runs on, and what `enter_critical` leaves in a core's mask. -/
structure Config (Core Ctx Mask : Type) where
  coreOf : Ctx → Core
  masked : Mask

structure State (Core Ctx Mask : Type) where
  flag : Bool
  token : Mask
  mask : Core → Mask
  /-- The context a core executes. -/
  running : Core → Ctx
  place : Ctx → Place Mask
  /-- The mask the context's last acquire found on its core. -/
  entry : Ctx → Mask

inductive Act (Ctx Mask : Type) where
  /-- An interrupt is taken or returns, or threads switch: the context runs next on its core. -/
  | switchTo (x : Ctx)
  /-- Code outside the lock changes its core's mask. -/
  | setMask (x : Ctx) (m : Mask)
  | lock (x : Ctx)
  | tryLock (x : Ctx)
  | take (x : Ctx)
  | storeToken (x : Ctx)
  | unlock (x : Ctx)
  | readToken (x : Ctx)
  | restore (x : Ctx)
  deriving DecidableEq, Repr

variable {Core Ctx Mask : Type}

section Model

variable [DecidableEq Core] [DecidableEq Ctx] [DecidableEq Mask]

/-- The executing context moves to place `p`. -/
def State.moveTo (s : State Core Ctx Mask) (x : Ctx) (p : Place Mask) : State Core Ctx Mask :=
  { s with place := Function.update s.place x p }

/-- `this_core::enter_critical` as the first step of an acquire: the core is masked, and the mask it
had goes into the local `saved`. -/
def enter (cfg : Config Core Ctx Mask) (s : State Core Ctx Mask) (x : Ctx)
    (p : Mask → Place Mask) : State Core Ctx Mask :=
  let c := cfg.coreOf x
  { s with
    mask := Function.update s.mask c cfg.masked
    entry := Function.update s.entry x (s.mask c)
    place := Function.update s.place x (p (s.mask c)) }

/-- `this_core::exit_critical(m)`. -/
def exit (cfg : Config Core Ctx Mask) (s : State Core Ctx Mask) (x : Ctx) (m : Mask) :
    State Core Ctx Mask :=
  { s with
    mask := Function.update s.mask (cfg.coreOf x) m
    place := Function.update s.place x .outside }

/-- One access of the context `x`, which executes on its core. -/
def step (cfg : Config Core Ctx Mask) (s : State Core Ctx Mask) :
    Act Ctx Mask → Option (State Core Ctx Mask)
  | .switchTo _ => none
  | .setMask x m => match s.place x with
    | .outside => some { s with mask := Function.update s.mask (cfg.coreOf x) m }
    | _ => none
  | .lock x => match s.place x with
    | .outside => some (enter cfg s x .spinning)
    | _ => none
  | .tryLock x => match s.place x with
    | .outside => some (enter cfg s x .trying)
    | _ => none
  | .take x => match s.place x with
    -- `while (!take(flag)) cpu_relax();`
    | .spinning saved => some (if s.flag then s else { s with flag := true }.moveTo x (.taken saved))
    | .trying saved =>
        some (if s.flag then s.moveTo x (.failed saved) else { s with flag := true }.moveTo x (.taken saved))
    | _ => none
  | .storeToken x => match s.place x with
    | .taken saved => some ({ s with token := saved }.moveTo x .holding)
    | _ => none
  | .unlock x => match s.place x with
    | .holding => some ({ s with flag := false }.moveTo x .dropped)
    | _ => none
  | .readToken x => match s.place x with
    | .dropped => some (s.moveTo x (.restoring s.token))
    | _ => none
  | .restore x => match s.place x with
    | .restoring m => some (exit cfg s x m)
    | .failed saved => some (exit cfg s x saved)
    | _ => none

/-- The context an action belongs to. -/
def Act.ctx : Act Ctx Mask → Ctx
  | .switchTo x | .setMask x _ | .lock x | .tryLock x | .take x | .storeToken x | .unlock x
  | .readToken x | .restore x => x

/-- A core changes the context it runs only unmasked, and every other access is made by the context
its core runs. -/
def next (cfg : Config Core Ctx Mask) (s : State Core Ctx Mask) (a : Act Ctx Mask) :
    Option (State Core Ctx Mask) :=
  match a with
  | .switchTo x =>
      if s.mask (cfg.coreOf x) = cfg.masked then none
      else some { s with running := Function.update s.running (cfg.coreOf x) x }
  | a => if s.running (cfg.coreOf a.ctx) = a.ctx then step cfg s a else none

end Model

/-- Nobody is in an operation, the flag is clear; masks, token and running contexts are arbitrary. -/
def Initial (cfg : Config Core Ctx Mask) (s : State Core Ctx Mask) : Prop :=
  s.flag = false ∧ (∀ x, s.place x = .outside) ∧ ∀ c, cfg.coreOf (s.running c) = c

/-- The condition on a step: a token is stored while another context is between its clear of the flag
and its read of the token only if it is the token that context is about to read. -/
def Undisturbed (s : State Core Ctx Mask) : Act Ctx Mask → Prop
  | .storeToken x => ∀ y, s.place y = .dropped → s.place x = .taken (s.entry y)
  | _ => True

instance [Fintype Ctx] [DecidableEq Mask] (s : State Core Ctx Mask) :
    (a : Act Ctx Mask) → Decidable (Undisturbed s a)
  | .storeToken x =>
      inferInstanceAs (Decidable (∀ y, s.place y = .dropped → s.place x = .taken (s.entry y)))
  | .switchTo _ | .setMask _ _ | .lock _ | .tryLock _ | .take _ | .unlock _ | .readToken _
  | .restore _ => isTrue trivial

/-! ### The invariant -/

/-- What the lock and the context's own locals say about the mask the context found. -/
def TokenOk (s : State Core Ctx Mask) (x : Ctx) : Prop :=
  match s.place x with
  | .outside => True
  | .spinning m | .trying m | .taken m | .failed m | .restoring m => m = s.entry x
  | .holding | .dropped => s.token = s.entry x

/-- At most one context is inside, the flag says so, and every context can still tell its mask. -/
structure Inv (s : State Core Ctx Mask) : Prop where
  flagged : ∀ x, (s.place x).inside = true → s.flag = true
  exclusive : ∀ x y, (s.place x).inside = true → (s.place y).inside = true → x = y
  tokenOk : ∀ x, TokenOk s x

theorem inv_initial {cfg : Config Core Ctx Mask} {s : State Core Ctx Mask} (h : Initial cfg s) :
    Inv s := by
  obtain ⟨-, hout, -⟩ := h
  constructor
  · intro x hx
    simp [hout x, Place.inside] at hx
  · intro x y hx
    simp [hout x, Place.inside] at hx
  · intro x
    simp [TokenOk, hout x]

section Moves

variable [DecidableEq Ctx]

@[simp] theorem moveTo_token (s : State Core Ctx Mask) (x : Ctx) (p : Place Mask) :
    (s.moveTo x p).token = s.token := rfl

@[simp] theorem moveTo_entry (s : State Core Ctx Mask) (x : Ctx) (p : Place Mask) :
    (s.moveTo x p).entry = s.entry := rfl

@[simp] theorem moveTo_place_self (s : State Core Ctx Mask) (x : Ctx) (p : Place Mask) :
    (s.moveTo x p).place x = p := by
  simp [State.moveTo]

theorem moveTo_place_ne (s : State Core Ctx Mask) {x y : Ctx} (p : Place Mask) (h : y ≠ x) :
    (s.moveTo x p).place y = s.place y := by
  simp [State.moveTo, h]

/-- A move of one context that leaves flag and token alone and does not take it inside. -/
theorem Inv.move {s t : State Core Ctx Mask} (hi : Inv s) {x : Ctx}
    (hflag : t.flag = s.flag) (htoken : t.token = s.token)
    (hplace : ∀ y, y ≠ x → t.place y = s.place y) (hentry : ∀ y, y ≠ x → t.entry y = s.entry y)
    (hin : (t.place x).inside = true → (s.place x).inside = true) (hx : TokenOk t x) : Inv t := by
  have hback : ∀ y, (t.place y).inside = true → (s.place y).inside = true := by
    intro y hy
    by_cases hyx : y = x
    · subst hyx
      exact hin hy
    · rwa [hplace y hyx] at hy
  constructor
  · intro y hy
    rw [hflag]
    exact hi.flagged y (hback y hy)
  · intro y z hy hz
    exact hi.exclusive y z (hback y hy) (hback z hz)
  · intro y
    by_cases hyx : y = x
    · subst hyx
      exact hx
    · have hy := hi.tokenOk y
      unfold TokenOk at hy ⊢
      rw [hplace y hyx, hentry y hyx, htoken]
      exact hy

/-- The winning test-and-set: the flag was clear, so nobody was inside. -/
theorem Inv.win {s : State Core Ctx Mask} (hi : Inv s) {x : Ctx} {m : Mask}
    (hflag : s.flag = false) (hm : m = s.entry x) :
    Inv ({ s with flag := true }.moveTo x (.taken m)) := by
  have hnone : ∀ y, (s.place y).inside = false := by
    intro y
    by_contra hy
    have := hi.flagged y (by simpa using hy)
    simp [hflag] at this
  have honly : ∀ y, ((({ s with flag := true } : State Core Ctx Mask).moveTo x
      (.taken m)).place y).inside = true → y = x := by
    intro y hy
    by_contra hyx
    rw [moveTo_place_ne _ _ hyx, hnone y] at hy
    exact Bool.noConfusion hy
  constructor
  · intro y _
    rfl
  · intro y z hy hz
    rw [honly y hy, honly z hz]
  · intro y
    by_cases hyx : y = x
    · subst hyx
      simpa [TokenOk] using hm
    · have hy := hi.tokenOk y
      unfold TokenOk at hy ⊢
      rw [moveTo_place_ne _ _ hyx]
      exact hy

/-- The store of the token: nobody else holds, and who is about to read it finds its own. -/
theorem Inv.store {s : State Core Ctx Mask} (hi : Inv s) {x : Ctx} {m : Mask}
    (hx : s.place x = .taken m) (hok : Undisturbed s (.storeToken x)) :
    Inv ({ s with token := m }.moveTo x .holding) := by
  have hback : ∀ y, ((({ s with token := m } : State Core Ctx Mask).moveTo x
      .holding).place y).inside = true → (s.place y).inside = true := by
    intro y hy
    by_cases hyx : y = x
    · subst hyx
      simp [hx, Place.inside]
    · rwa [moveTo_place_ne _ _ hyx] at hy
  constructor
  · intro y hy
    exact hi.flagged y (hback y hy)
  · intro y z hy hz
    exact hi.exclusive y z (hback y hy) (hback z hz)
  · intro y
    by_cases hyx : y = x
    · subst hyx
      have hm := hi.tokenOk y
      simp only [TokenOk, hx] at hm
      simpa [TokenOk] using hm
    · have hy := hi.tokenOk y
      unfold TokenOk at hy ⊢
      rw [moveTo_place_ne _ _ hyx]
      cases hp : s.place y with
      | holding =>
          -- a second holder would be the storing context itself
          have hin : (s.place y).inside = true := by rw [hp]; rfl
          exact absurd (hi.exclusive y x hin (by rw [hx]; rfl)) hyx
      | dropped =>
          have heq := hok y hp
          rw [hx, Place.taken.injEq] at heq
          simpa [hp] using heq
      | outside => trivial
      | _ => simpa [hp] using hy

end Moves

section Steps

variable [DecidableEq Core] [DecidableEq Ctx]

theorem inv_step {cfg : Config Core Ctx Mask} {s t : State Core Ctx Mask} {a : Act Ctx Mask}
    (hi : Inv s) (hok : Undisturbed s a) (h : step cfg s a = some t) : Inv t := by
  cases a with
  | switchTo x => cases h
  | setMask x m =>
      simp only [step] at h
      split at h <;> cases h
      exact ⟨hi.flagged, hi.exclusive, hi.tokenOk⟩
  | lock x =>
      simp only [step] at h
      split at h <;> cases h
      refine hi.move (x := x) rfl rfl ?_ ?_ ?_ ?_ <;>
        simp +contextual [enter, TokenOk, Place.inside]
  | tryLock x =>
      simp only [step] at h
      split at h <;> cases h
      refine hi.move (x := x) rfl rfl ?_ ?_ ?_ ?_ <;>
        simp +contextual [enter, TokenOk, Place.inside]
  | take x =>
      have hx := hi.tokenOk x
      simp only [step] at h
      split at h
      case h_1 saved hp =>
        simp only [TokenOk, hp] at hx
        cases hf : s.flag <;> simp only [hf, Bool.false_eq_true, if_true, if_false] at h <;> cases h
        · exact hi.win hf hx
        · exact hi
      case h_2 saved hp =>
        simp only [TokenOk, hp] at hx
        cases hf : s.flag <;> simp only [hf, Bool.false_eq_true, if_true, if_false] at h <;> cases h
        · exact hi.win hf hx
        · refine hi.move (x := x) rfl rfl (fun y hy => moveTo_place_ne s _ hy) (fun _ _ => rfl) ?_ ?_
          · simp [Place.inside]
          · simpa [TokenOk] using hx
      case h_3 => cases h
  | storeToken x =>
      simp only [step] at h
      split at h <;> cases h
      case h_1 saved hp => exact hi.store hp hok
  | unlock x =>
      have hx := hi.tokenOk x
      simp only [step] at h
      split at h <;> cases h
      case h_1 hp =>
        simp only [TokenOk, hp] at hx
        -- the only context inside leaves, so nobody is left for the cleared flag to contradict
        have hone : ∀ y, ((s.moveTo x .dropped).place y).inside = true → False := by
          intro y hy
          by_cases hyx : y = x
          · subst hyx
            simp [Place.inside] at hy
          · rw [moveTo_place_ne _ _ hyx] at hy
            exact hyx (hi.exclusive y x hy (by rw [hp]; rfl))
        refine ⟨fun y hy => (hone y hy).elim, fun y z hy => (hone y hy).elim, fun y => ?_⟩
        by_cases hyx : y = x
        · subst hyx
          simpa [TokenOk] using hx
        · have hy := hi.tokenOk y
          unfold TokenOk at hy ⊢
          rw [moveTo_place_ne _ _ hyx]
          exact hy
  | readToken x =>
      have hx := hi.tokenOk x
      simp only [step] at h
      split at h <;> cases h
      case h_1 hp =>
        simp only [TokenOk, hp] at hx
        refine hi.move (x := x) rfl rfl (fun y hy => moveTo_place_ne s _ hy) (fun _ _ => rfl) ?_ ?_
        · simp [Place.inside]
        · simpa [TokenOk] using hx
  | restore x =>
      simp only [step] at h
      split at h <;> cases h <;>
        refine hi.move (x := x) rfl rfl ?_ ?_ ?_ ?_ <;>
        simp +contextual [exit, TokenOk, Place.inside]

variable [DecidableEq Mask]

/-- A step of the system is a change of the running context or one access. -/
theorem next_cases {cfg : Config Core Ctx Mask} {s t : State Core Ctx Mask} {a : Act Ctx Mask}
    (h : next cfg s a = some t) : (∃ r, t = { s with running := r }) ∨ step cfg s a = some t := by
  cases a with
  | switchTo x =>
      left
      by_cases hm : s.mask (cfg.coreOf x) = cfg.masked
      · simp [next, hm] at h
      · simp only [next, hm, if_false, Option.some.injEq] at h
        exact ⟨_, h.symm⟩
  | _ =>
      right
      simp only [next, Option.ite_none_right_eq_some] at h
      exact h.2

/-- **One step keeps the invariant**, provided it meets the condition. -/
theorem inv_next {cfg : Config Core Ctx Mask} {s t : State Core Ctx Mask} {a : Act Ctx Mask}
    (hi : Inv s) (hok : Undisturbed s a) (h : next cfg s a = some t) : Inv t := by
  obtain ⟨r, rfl⟩ | hstep := next_cases h
  · exact ⟨hi.flagged, hi.exclusive, hi.tokenOk⟩
  · exact inv_step hi hok hstep

/-! ### Results -/

/-- What the restore of a context writes is the mask its acquire found. -/
theorem restore_mask {cfg : Config Core Ctx Mask} {s t : State Core Ctx Mask} {x : Ctx}
    (hx : TokenOk s x) (h : next cfg s (.restore x) = some t) :
    t.mask (cfg.coreOf x) = s.entry x := by
  obtain ⟨-, h⟩ : _ ∧ step cfg s (.restore x) = some t := by
    simpa only [next, Option.ite_none_right_eq_some] using h
  simp only [step] at h
  split at h <;> cases h
  case h_1 m hp => simpa [exit, TokenOk, hp] using hx
  case h_2 m hp => simpa [exit, TokenOk, hp] using hx

/-- **Each context restores its own mask.**  In a run whose token stores all meet `Undisturbed`, at most
one context is between a successful take and its drop in any state reached, and every restore there,
of an `unlock` or of a failed `try_lock`, puts back the mask the context's acquire found on its core. -/
theorem unlock_restores_own (cfg : Config Core Ctx Mask) (s₀ s : State Core Ctx Mask)
    (as : List (Act Ctx Mask)) (h₀ : Initial cfg s₀)
    (hok : Meets (next cfg) Undisturbed s₀ as) (h : run (next cfg) s₀ as = some s) :
    (∀ x y, (s.place x).inside = true → (s.place y).inside = true → x = y) ∧
      ∀ x t, next cfg s (.restore x) = some t → t.mask (cfg.coreOf x) = s.entry x := by
  have hi : Inv s :=
    run_invariant_of_meets (fun _ _ _ hi hok h => inv_next hi hok h) (inv_initial h₀) hok h
  exact ⟨hi.exclusive, fun x t ht => restore_mask (hi.tokenOk x) ht⟩

/-! ### Exclusion -/

/-- `owner` is the one context inside, if there is one; who is in an operation is what its masked core runs. -/
structure Held (cfg : Config Core Ctx Mask) (s : State Core Ctx Mask) (owner : Option Ctx) : Prop where
  flag : s.flag = owner.isSome
  inside : ∀ x, (s.place x).inside = true ↔ owner = some x
  masked : ∀ x, s.place x ≠ .outside → s.running (cfg.coreOf x) = x ∧ s.mask (cfg.coreOf x) = cfg.masked

variable {cfg : Config Core Ctx Mask} {s t : State Core Ctx Mask} {owner : Option Ctx} {x : Ctx}

omit [DecidableEq Core] [DecidableEq Mask] in
/-- The context its core runs makes an access; the others in an operation are on other cores. -/
theorem Held.step (hi : Held cfg s owner) (hx : s.running (cfg.coreOf x) = x) (hrun : t.running = s.running)
    (hplace : ∀ y, y ≠ x → t.place y = s.place y) (hmask : ∀ c, c ≠ cfg.coreOf x → t.mask c = s.mask c)
    (hself : t.place x ≠ .outside → t.mask (cfg.coreOf x) = cfg.masked)
    (hflag : t.flag = ((t.place x).inside || s.flag && !(s.place x).inside))
    (hwin : (t.place x).inside = true → (s.place x).inside = true ∨ s.flag = false) :
    ∃ owner', Held cfg t owner' := by
  have hown := hi.flag
  have hin := hi.inside x
  refine ⟨if (t.place x).inside then some x else if owner = some x then none else owner, by grind, ?_, ?_⟩ <;>
    intro y <;> by_cases hyx : y = x
  · grind
  · have hy := hi.inside y
    rw [hplace y hyx]
    grind
  · subst hyx
    exact fun hy => ⟨hrun ▸ hx, hself hy⟩
  · rw [hplace y hyx]
    intro hy
    obtain ⟨hrunning, hmasked⟩ := hi.masked y hy
    have hcore : cfg.coreOf y ≠ cfg.coreOf x := fun heq => hyx (by rw [← hrunning, heq, hx])
    exact ⟨hrun ▸ hrunning, hmask _ hcore ▸ hmasked⟩

theorem Held.next {a : Act Ctx Mask} (hi : Held cfg s owner) (h : next cfg s a = some t) :
    ∃ owner', Held cfg t owner' := by
  cases a with
  | switchTo x =>
    obtain ⟨hm, h⟩ := Option.ite_none_left_eq_some.1 h
    cases h
    refine ⟨owner, hi.flag, hi.inside, fun y hy => ?_⟩
    obtain ⟨hrunning, hmasked⟩ := hi.masked y hy
    have hcore : cfg.coreOf y ≠ cfg.coreOf x := fun heq => hm (heq ▸ hmasked)
    exact ⟨(Function.update_of_ne hcore ..).trans hrunning, hmasked⟩
  | setMask x _ | lock x | tryLock x | take x | storeToken x | unlock x | readToken x | restore x =>
    obtain ⟨hx, h⟩ := Option.ite_none_right_eq_some.1 h
    have hin := hi.inside x
    have hmasked := hi.masked x
    have hflag := hi.flag
    simp only [Spinlock.step] at h
    split at h <;> cases h <;> refine hi.step (x := x) hx ?_ ?_ ?_ ?_ ?_ ?_ <;> cases hf : s.flag <;>
      simp_all [State.moveTo, enter, exit, Place.inside]

end Steps

/-! ### Two cores -/

/-- Two cores with one context each; the mask is whether interrupts are off. -/
def twoCores : Config (Fin 2) (Fin 2) Bool := { coreOf := id, masked := true }

/-- Core 0 unmasked, core 1 already in a critical section of its own. -/
def twoCoresStart : State (Fin 2) (Fin 2) Bool :=
  { flag := false, token := false, mask := fun c => c == 1, running := id,
    place := fun _ => .outside, entry := fun _ => false }

/-- Context 0 takes and drops the lock, context 1 takes it between the drop and the read. -/
def overtakenRelease : List (Act (Fin 2) Bool) :=
  [.lock 0, .take 0, .storeToken 0, .lock 1, .take 1, .unlock 0, .take 1, .storeToken 1, .readToken 0]

/-- The same contention with the read before the contender's store. -/
def orderlyRelease : List (Act (Fin 2) Bool) :=
  [.lock 0, .take 0, .storeToken 0, .lock 1, .take 1, .unlock 0, .take 1, .readToken 0, .storeToken 1]

/-- **The release can restore the contender's mask.**  Core 0 entered unmasked and leaves its
`unlock` masked. -/
theorem unlock_restores_contender :
    Initial twoCores twoCoresStart ∧
      ∃ s t, run (next twoCores) twoCoresStart overtakenRelease = some s ∧
        next twoCores s (.restore 0) = some t ∧ s.entry 0 = false ∧ t.mask 0 = true := by
  refine ⟨⟨rfl, fun _ => rfl, fun _ => rfl⟩, _, _, rfl, rfl, rfl, rfl⟩

theorem unlock_restores_own_orderly :
    ∃ s t, run (next twoCores) twoCoresStart orderlyRelease = some s ∧
      next twoCores s (.restore 0) = some t ∧ t.mask 0 = s.entry 0 := by
  have hok : Meets (next twoCores) Undisturbed twoCoresStart orderlyRelease := by
    decide
  exact ⟨_, _, rfl, rfl, (unlock_restores_own twoCores twoCoresStart _ orderlyRelease
    ⟨rfl, fun _ => rfl, fun _ => rfl⟩ hok rfl).2 0 _ rfl⟩

end Cyros.Kernel.Spinlock
