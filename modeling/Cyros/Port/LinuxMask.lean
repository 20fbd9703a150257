import Mathlib.Logic.Function.Basic
import Cyros.Lib.Run

/-!
# The signal mask of the preemptive Linux port

On this port a core is an operating-system thread, an interrupt is a signal and masking is the signal
mask.  Two depths, of interrupt and of preemption disables, say which of the two owned signals must be
blocked; the mask follows them.  A raise tightens the mask for the depths it is about to have and then
raises the depth; a lowering lowers the depth and then derives the mask anew, blocking first.

The model takes the operations apart at the system calls, with a delivery possible before each step.  A
delivery blocks what the machinery blocks, its handler counts itself as a region, runs operations of its
own and returns, which puts back the mask that was interrupted; the reschedule handler may return into
another thread, with that thread's mask.  `mask_follows_depths` is the result: in every state the mask
blocks at least what the depths demand, exactly that between operations, and what the port does not
hold is as the thread had it.
-/

namespace Cyros.Port.LinuxMask

open Cyros.Lib

/-! ### Signals and depths -/

/-- The rows of `owned_signals`. -/
inductive Owned
  | reschedule
  | timer
deriving DecidableEq

def ownedSignals : List Owned := [.reschedule, .timer]

def Owned.gatedByPreempt : Owned → Bool
  | .reschedule => true
  | .timer => false

/-- A signal: one the port owns, or any other. -/
inductive Signal
  | owned (s : Owned)
  | other (signo : ℕ)
deriving DecidableEq

/-- A set of signals; as a mask, the blocked ones. -/
abbrev Mask := Signal → Bool

/-- Which depth an operation moves. -/
inductive Level
  | interrupt
  | preempt
deriving DecidableEq

/-- `interrupt_disable_depth` and `preempt_disable_depth` of the core. -/
structure Depths where
  interrupt : ℕ
  preempt : ℕ
deriving DecidableEq

namespace Depths

def get (d : Depths) : Level → ℕ
  | .interrupt => d.interrupt
  | .preempt => d.preempt

def raise (d : Depths) : Level → Depths
  | .interrupt => { d with interrupt := d.interrupt + 1 }
  | .preempt => { d with preempt := d.preempt + 1 }

def lower (d : Depths) : Level → Depths
  | .interrupt => { d with interrupt := d.interrupt - 1 }
  | .preempt => { d with preempt := d.preempt - 1 }

def zero : Depths := ⟨0, 0⟩

def Le (d e : Depths) : Prop := d.interrupt ≤ e.interrupt ∧ d.preempt ≤ e.preempt

theorem Le.raise {d e : Depths} (h : d.Le e) (l : Level) : d.Le (e.raise l) := by
  obtain ⟨hi, hp⟩ := h
  cases l with
  | interrupt => exact ⟨Nat.le_succ_of_le hi, hp⟩
  | preempt => exact ⟨hi, Nat.le_succ_of_le hp⟩

/-- Lowering a depth that is above the floor keeps to the floor. -/
theorem Le.lower {d e : Depths} {l : Level} (h : d.Le e) (hl : d.get l < e.get l) :
    d.Le (e.lower l) := by
  obtain ⟨hi, hp⟩ := h
  cases l with
  | interrupt => exact ⟨Nat.le_sub_one_of_lt hl, hp⟩
  | preempt => exact ⟨hi, Nat.le_sub_one_of_lt hl⟩

theorem Le.trans {d e f : Depths} (h : d.Le e) (h' : e.Le f) : d.Le f :=
  ⟨Nat.le_trans h.1 h'.1, Nat.le_trans h.2 h'.2⟩

theorem le_raise (d : Depths) (l : Level) : d.Le (d.raise l) :=
  Le.raise ⟨Nat.le_refl _, Nat.le_refl _⟩ l

theorem raise_lower {d : Depths} {l : Level} (h : 0 < d.get l) : (d.lower l).raise l = d := by
  cases l with
  | interrupt =>
      have hi : d.interrupt - 1 + 1 = d.interrupt := Nat.sub_add_cancel h
      show Depths.mk (d.interrupt - 1 + 1) d.preempt = d
      rw [hi]
  | preempt =>
      have hp : d.preempt - 1 + 1 = d.preempt := Nat.sub_add_cancel h
      show Depths.mk d.interrupt (d.preempt - 1 + 1) = d
      rw [hp]

theorem lower_raise (d : Depths) (l : Level) : (d.raise l).lower l = d := by
  cases l <;> rfl

end Depths

/-- `should_block`. -/
def shouldBlock (s : Owned) (d : Depths) : Bool :=
  decide (0 < d.interrupt) || (s.gatedByPreempt && decide (0 < d.preempt))

theorem shouldBlock_raise {s : Owned} {d : Depths} (l : Level) (h : shouldBlock s d = true) :
    shouldBlock s (d.raise l) = true := by
  simp only [shouldBlock, Bool.or_eq_true, Bool.and_eq_true, decide_eq_true_eq] at h ⊢
  cases l with
  | interrupt => exact Or.inl (Nat.succ_pos _)
  | preempt =>
      rcases h with h | ⟨hs, -⟩
      · exact Or.inl h
      · exact Or.inr ⟨hs, Nat.succ_pos _⟩

theorem shouldBlock_interrupt (s : Owned) (d : Depths) : shouldBlock s (d.raise .interrupt) = true := by
  simp [shouldBlock, Depths.raise]

/-- The reschedule signal is let through at baseline only. -/
theorem eq_zero_of_not_shouldBlock {d : Depths} (h : shouldBlock .reschedule d = false) :
    d = Depths.zero := by
  simp only [shouldBlock, Owned.gatedByPreempt, Bool.true_and, Bool.or_eq_false_iff,
    decide_eq_false_iff_not, Nat.not_lt, Nat.le_zero] at h
  cases d
  rw [Depths.zero, Depths.mk.injEq]
  exact h

/-! ### The system calls and the sets they are given -/

/-- `pthread_sigmask(SIG_BLOCK, ..)`. -/
def sigBlock (set mask : Mask) : Mask := fun sig => set sig || mask sig

/-- `pthread_sigmask(SIG_UNBLOCK, ..)`. -/
def sigUnblock (set mask : Mask) : Mask := fun sig => mask sig && !set sig

section

variable (handed : Owned → Bool)

/-- The loop over `owned_signals` that fills a set, passing over what has been handed back. -/
def collect (want : Owned → Bool) : Mask :=
  ownedSignals.foldl
    (fun set s => if handed s then set else if want s then Function.update set (.owned s) true else set)
    fun _ => false

/-- What `block_for` and `apply_mask` block. -/
def blockSet (d : Depths) : Mask := collect handed fun s => shouldBlock s d

/-- What `apply_mask` unblocks. -/
def unblockSet (d : Depths) : Mask := collect handed fun s => !shouldBlock s d

theorem collect_owned (want : Owned → Bool) (s : Owned) :
    collect handed want (.owned s) = (!handed s && want s) := by
  unfold collect ownedSignals
  cases s <;> cases hr : handed .reschedule <;> cases ht : handed .timer <;>
    cases hwr : want .reschedule <;> cases hwt : want .timer <;>
    simp [hr, ht, hwr, hwt]

theorem collect_other (want : Owned → Bool) (n : ℕ) : collect handed want (.other n) = false := by
  unfold collect ownedSignals
  cases hr : handed .reschedule <;> cases ht : handed .timer <;>
    cases hwr : want .reschedule <;> cases hwt : want .timer <;>
    simp [hr, ht, hwr, hwt]

/-! ### Operations -/

/-- `irq_save` and `preempt_disable` raise, `irq_restore` and `preempt_enable` lower. -/
inductive Op
  | raise (l : Level)
  | lower (l : Level)
deriving DecidableEq

/-- Where an operation is. -/
inductive Place
  | idle
  /-- `block_for`, called with these depths, before its system call. -/
  | tighten (l : Level) (d : Depths)
  /-- The mask is tightened, the depth not yet raised. -/
  | count (l : Level)
  /-- The depth is lowered, `apply_mask` has not read the depths. -/
  | derive (l : Level)
  /-- `apply_mask` with both sets filled. -/
  | loosen (l : Level) (block unblock : Mask)
  /-- Before its last system call. -/
  | unmask (l : Level) (unblock : Mask)

/-- The call of an operation.  Nobody lowers a depth below the one it started from (`floor`): for a
thread of a running core that is zero, which the operations check. -/
def Op.begin (floor d : Depths) : Op → Option (Depths × Place)
  | .raise l => some (d, .tighten l (d.raise l))
  | .lower l => if floor.get l < d.get l then some (d.lower l, .derive l) else none

/-- The next step of the operation in progress. -/
def advance (mask : Mask) (d : Depths) : Place → Option (Mask × Depths × Place)
  | .idle => none
  | .tighten l d' => some (sigBlock (blockSet handed d') mask, d, .count l)
  | .count l => some (mask, d.raise l, .idle)
  | .derive l => some (mask, d, .loosen l (blockSet handed d) (unblockSet handed d))
  | .loosen l block unblock => some (sigBlock block mask, d, .unmask l unblock)
  | .unmask _ unblock => some (sigUnblock unblock mask, d, .idle)

/-- A step of whoever runs: the call of an operation, or its next step. -/
def opStep (floor : Depths) (mask : Mask) (d : Depths) (place : Place) :
    Option Op → Option (Mask × Depths × Place)
  | some op => match place with
      | .idle => (op.begin floor d).map fun r => (mask, r.1, r.2)
      | _ => none
  | none => advance handed mask d place

/-! ### The core -/

/-- What the machinery blocks for a handler: its own signal, and under the timer's the reschedule
too. -/
def delivery : Owned → Mask
  | .reschedule => fun sig => sig == .owned .reschedule
  | .timer => fun sig => sig == .owned .timer || sig == .owned .reschedule

/-- The depth a handler counts itself in: `isr_region` and `preempt_region`. -/
def Owned.region : Owned → Level
  | .reschedule => .preempt
  | .timer => .interrupt

/-- A handler: delivered and not yet counted, in its body, or no longer counted. -/
inductive Stage
  | entered
  | body (place : Place)
  | left

structure Frame where
  source : Owned
  stage : Stage
  /-- The mask it interrupted, which its return puts back. -/
  saved : Mask
  /-- The depths it found. -/
  found : Depths

/-- A core: its thread's mask and depths, the running thread and how far it is in an operation, the
handlers above it from the innermost, and the threads that are not running with the mask and the place
they were interrupted at. -/
structure Core (Tid : Type) where
  mask : Mask
  depths : Depths
  thread : Tid
  place : Place
  handlers : List Frame
  parked : Tid → Option (Mask × Place)

variable {Tid : Type} [DecidableEq Tid]

inductive Act (Tid : Type)
  /-- Whoever runs calls an operation. -/
  | call (op : Op)
  /-- Whoever runs takes the next step of its operation, or a handler counts its region. -/
  | go
  /-- An owned signal is delivered. -/
  | deliver (s : Owned)
  /-- A handler ends its region. -/
  | leave
  /-- A handler returns; the reschedule handler into the thread it chose. -/
  | ret (t : Tid)

namespace Core

variable (base : Depths)

/-- An operation's step by whoever runs; `base` are the depths the threads start from. -/
def operate (c : Core Tid) (a : Option Op) : Option (Core Tid) :=
  match c.handlers with
  | [] => (opStep handed base c.mask c.depths c.place a).map fun r =>
      { c with mask := r.1, depths := r.2.1, place := r.2.2 }
  | ⟨source, .body place, saved, found⟩ :: rest =>
      (opStep handed (found.raise source.region) c.mask c.depths place a).map fun r =>
        { c with
          mask := r.1
          depths := r.2.1
          handlers := ⟨source, .body r.2.2, saved, found⟩ :: rest }
  | _ => none

def next (c : Core Tid) : Act Tid → Option (Core Tid)
  | .call op => c.operate handed base (some op)
  | .go => match c.handlers with
      | ⟨source, .entered, saved, found⟩ :: rest => some { c with
          depths := c.depths.raise source.region
          handlers := ⟨source, .body .idle, saved, found⟩ :: rest }
      | _ => c.operate handed base none
  | .deliver s =>
      if c.mask (.owned s) || handed s then none
      else some { c with
        mask := sigBlock (delivery s) c.mask
        handlers := ⟨s, .entered, c.mask, c.depths⟩ :: c.handlers }
  | .leave => match c.handlers with
      | ⟨source, .body .idle, saved, found⟩ :: rest =>
          -- the handler's own operations are balanced
          if c.depths = found.raise source.region then some { c with
            depths := c.depths.lower source.region
            handlers := ⟨source, .left, saved, found⟩ :: rest }
          else none
      | _ => none
  | .ret t => match c.handlers with
      | ⟨source, .left, saved, _⟩ :: rest =>
          if t = c.thread then some { c with mask := saved, handlers := rest }
          else match source, rest, c.parked t with
            | .reschedule, [], some (mask, place) => some { c with
                mask := mask
                thread := t
                place := place
                handlers := []
                parked := Function.update (Function.update c.parked t none) c.thread
                  (some (saved, c.place)) }
            | _, _, _ => none
      | _ => none

/-- No operation is in progress, of the thread or of the innermost handler, which is in its body. -/
def AtRest (c : Core Tid) : Prop :=
  match c.handlers with
  | [] => c.place = .idle
  | h :: _ => h.stage = .body .idle

end Core

/-! ### What the steps keep -/

/-- The mask is exactly what the depths demand, on the signals the port holds. -/
def Exact (mask : Mask) (d : Depths) : Prop :=
  ∀ s, handed s = false → mask (.owned s) = shouldBlock s d

/-- A signal the port owns and has not handed back. -/
def Held (sig : Signal) : Prop := ∃ s, sig = .owned s ∧ handed s = false

/-- Two masks agree on the signals the port does not hold. -/
def Agree (m m' : Mask) : Prop := ∀ sig, ¬ Held handed sig → m' sig = m sig

variable {handed}

theorem Agree.refl (m : Mask) : Agree handed m m := fun _ _ => rfl

theorem Agree.trans {m m' m'' : Mask} (h : Agree handed m m') (h' : Agree handed m' m'') :
    Agree handed m m'' := fun sig hsig => (h' sig hsig).trans (h sig hsig)

theorem collect_of_not_held {want : Owned → Bool} {sig : Signal} (h : ¬ Held handed sig) :
    collect handed want sig = false := by
  cases sig with
  | owned s =>
      rw [collect_owned]
      cases hs : handed s with
      | true => rfl
      | false => exact absurd ⟨s, rfl, hs⟩ h
  | other n => exact collect_other handed want n

theorem agree_sigBlock (want : Owned → Bool) (m : Mask) :
    Agree handed m (sigBlock (collect handed want) m) := by
  intro sig hsig
  show (collect handed want sig || m sig) = m sig
  rw [collect_of_not_held hsig, Bool.false_or]

theorem agree_sigUnblock (want : Owned → Bool) (m : Mask) :
    Agree handed m (sigUnblock (collect handed want) m) := by
  intro sig hsig
  show (m sig && !collect handed want sig) = m sig
  rw [collect_of_not_held hsig]
  exact Bool.and_true _

/-- Blocking what a depth demands takes an exact mask to one for the raised depth. -/
theorem Exact.tighten {m : Mask} {d : Depths} (h : Exact handed m d) (l : Level) :
    Exact handed (sigBlock (blockSet handed (d.raise l)) m) (d.raise l) := by
  intro s hs
  show (collect handed _ (.owned s) || m (.owned s)) = _
  rw [collect_owned, hs, h s hs, Bool.not_false, Bool.true_and]
  cases hd : shouldBlock s d with
  | false => exact Bool.or_false _
  | true => rw [shouldBlock_raise l hd, Bool.or_self]

/-- What the lower depths demand is blocked already. -/
theorem Exact.block_lower {m : Mask} {d : Depths} {l : Level} (h : Exact handed m (d.raise l)) :
    Exact handed (sigBlock (blockSet handed d) m) (d.raise l) := by
  intro s hs
  show (collect handed _ (.owned s) || m (.owned s)) = _
  rw [collect_owned, hs, h s hs, Bool.not_false, Bool.true_and]
  cases hd : shouldBlock s d with
  | false => exact Bool.false_or _
  | true => rw [shouldBlock_raise l hd, Bool.or_self]

theorem Exact.unblock_lower {m : Mask} {d : Depths} {l : Level} (h : Exact handed m (d.raise l)) :
    Exact handed (sigUnblock (unblockSet handed d) m) d := by
  intro s hs
  show (m (.owned s) && !collect handed _ (.owned s)) = _
  rw [collect_owned, hs, h s hs, Bool.not_false, Bool.true_and]
  cases hd : shouldBlock s d with
  | false => rw [Bool.not_false, Bool.not_true, Bool.and_false]
  | true => rw [shouldBlock_raise l hd, Bool.not_true, Bool.not_false, Bool.and_self]

variable (handed)

/-- The mask at each place of an operation. -/
def PlaceOk (m : Mask) (d : Depths) : Place → Prop
  | .idle => Exact handed m d
  | .tighten l d' => Exact handed m d ∧ d' = d.raise l
  | .count l | .derive l => Exact handed m (d.raise l)
  | .loosen l block unblock =>
      Exact handed m (d.raise l) ∧ block = blockSet handed d ∧ unblock = unblockSet handed d
  | .unmask l unblock => Exact handed m (d.raise l) ∧ unblock = unblockSet handed d

variable {handed}

/-- At every place the mask is exact for the depths, or for the depths with one raised. -/
theorem PlaceOk.exact {m : Mask} {d : Depths} {place : Place} (h : PlaceOk handed m d place) :
    Exact handed m d ∨ ∃ l, Exact handed m (d.raise l) := by
  cases place with
  | idle => exact Or.inl h
  | tighten l d' => exact Or.inl h.1
  | count l => exact Or.inr ⟨l, h⟩
  | derive l => exact Or.inr ⟨l, h⟩
  | loosen l block unblock => exact Or.inr ⟨l, h.1⟩
  | unmask l unblock => exact Or.inr ⟨l, h.1⟩

/-- Where the reschedule signal can be delivered, the depths are zero and the mask is exact. -/
theorem baseline_of_exact {m : Mask} {d : Depths}
    (h : Exact handed m d ∨ ∃ l, Exact handed m (d.raise l))
    (hs : handed .reschedule = false) (hopen : m (.owned .reschedule) = false) :
    d = Depths.zero ∧ Exact handed m d := by
  rcases h with hex | ⟨l, hex⟩
  · rw [hex _ hs] at hopen
    exact ⟨eq_zero_of_not_shouldBlock hopen, hex⟩
  · rw [hex _ hs] at hopen
    have hzero := eq_zero_of_not_shouldBlock hopen
    cases l with
    | interrupt => exact absurd (congrArg Depths.interrupt hzero) (Nat.succ_ne_zero _)
    | preempt => exact absurd (congrArg Depths.preempt hzero) (Nat.succ_ne_zero _)

theorem opStep_ok {floor : Depths} {m m' : Mask} {d d' : Depths} {place place' : Place}
    {a : Option Op} (h : opStep handed floor m d place a = some (m', d', place'))
    (hplace : PlaceOk handed m d place) (hfloor : floor.Le d) :
    PlaceOk handed m' d' place' ∧ floor.Le d' ∧ Agree handed m m' := by
  cases a with
  | some op =>
      cases place with
      | idle =>
          obtain ⟨r, hr, heq⟩ := Option.map_eq_some_iff.1 h
          cases op with
          | raise l =>
              obtain rfl := Option.some.inj hr
              obtain ⟨rfl, rfl, rfl⟩ : m = m' ∧ d = d' ∧ Place.tighten l (d.raise l) = place' := by
                simpa using heq
              exact ⟨⟨hplace, rfl⟩, hfloor, Agree.refl m⟩
          | lower l =>
              unfold Op.begin at hr
              dsimp only at hr
              split at hr
              · next hlt =>
                  obtain rfl := Option.some.inj hr
                  obtain ⟨rfl, rfl, rfl⟩ : m = m' ∧ d.lower l = d' ∧ Place.derive l = place' := by
                    simpa using heq
                  refine ⟨?_, hfloor.lower hlt, Agree.refl m⟩
                  show Exact handed m ((d.lower l).raise l)
                  rw [Depths.raise_lower (Nat.lt_of_le_of_lt (Nat.zero_le _) hlt)]
                  exact hplace
              · cases hr
      | tighten | count | derive | loosen | unmask => cases h
  | none =>
      cases place with
      | idle => cases h
      | tighten l d₁ =>
          obtain ⟨rfl, rfl, rfl⟩ : sigBlock (blockSet handed d₁) m = m' ∧ d = d' ∧
            Place.count l = place' := by simpa [opStep, advance] using h
          obtain ⟨hex, rfl⟩ := hplace
          exact ⟨hex.tighten l, hfloor, agree_sigBlock _ m⟩
      | count l =>
          obtain ⟨rfl, rfl, rfl⟩ : m = m' ∧ d.raise l = d' ∧ Place.idle = place' := by
            simpa [opStep, advance] using h
          exact ⟨hplace, hfloor.raise l, Agree.refl m⟩
      | derive l =>
          obtain ⟨rfl, rfl, rfl⟩ : m = m' ∧ d = d' ∧
            Place.loosen l (blockSet handed d) (unblockSet handed d) = place' := by
            simpa [opStep, advance] using h
          exact ⟨⟨hplace, rfl, rfl⟩, hfloor, Agree.refl m⟩
      | loosen l block unblock =>
          obtain ⟨rfl, rfl, rfl⟩ : sigBlock block m = m' ∧ d = d' ∧
            Place.unmask l unblock = place' := by simpa [opStep, advance] using h
          obtain ⟨hex, rfl, rfl⟩ := hplace
          exact ⟨⟨hex.block_lower, rfl⟩, hfloor, agree_sigBlock _ m⟩
      | unmask l unblock =>
          obtain ⟨rfl, rfl, rfl⟩ : sigUnblock unblock m = m' ∧ d = d' ∧ Place.idle = place' := by
            simpa [opStep, advance] using h
          obtain ⟨hex, rfl⟩ := hplace
          exact ⟨hex.unblock_lower, hfloor, agree_sigUnblock _ m⟩

/-! ### Handlers -/

variable (handed)

/-- The mask and the depths while a handler runs. -/
def StageOk (h : Frame) (m : Mask) (d : Depths) : Prop :=
  match h.stage with
  | .entered | .left => d = h.found ∧ Exact handed m (h.found.raise h.source.region)
  | .body place => PlaceOk handed m d place ∧ (h.found.raise h.source.region).Le d

/-- Each handler runs as it should, over what it found: the reschedule handler over baseline, and
every one over a mask and depths that were right for what it interrupted. -/
def StackOk (base : Depths) (place : Place) : List Frame → Mask → Depths → Prop
  | [], m, d => PlaceOk handed m d place ∧ base.Le d
  | h :: rest, m, d => StageOk handed h m d ∧ (h.source = .reschedule → h.found = Depths.zero) ∧
      StackOk base place rest h.saved h.found

/-- The invariant: `own` is the mask each thread has for the signals that are not the port's. -/
structure Inv (base : Depths) (own : Tid → Mask) (c : Core Tid) : Prop where
  stack : StackOk handed base c.place c.handlers c.mask c.depths
  mask : Agree handed (own c.thread) c.mask
  saved : ∀ h ∈ c.handlers, Agree handed (own c.thread) h.saved
  parked : ∀ t m place, c.parked t = some (m, place) →
    PlaceOk handed m Depths.zero place ∧ Agree handed (own t) m

variable {handed} {base : Depths}

theorem StageOk.exact {h : Frame} {m : Mask} {d : Depths} (hs : StageOk handed h m d) :
    Exact handed m d ∨ ∃ l, Exact handed m (d.raise l) := by
  unfold StageOk at hs
  split at hs
  · exact Or.inr ⟨_, hs.1 ▸ hs.2⟩
  · exact Or.inr ⟨_, hs.1 ▸ hs.2⟩
  · exact hs.1.exact

theorem StageOk.found_le {h : Frame} {m : Mask} {d : Depths} (hs : StageOk handed h m d) :
    h.found.Le d := by
  unfold StageOk at hs
  split at hs
  · exact hs.1 ▸ ⟨Nat.le_refl _, Nat.le_refl _⟩
  · exact hs.1 ▸ ⟨Nat.le_refl _, Nat.le_refl _⟩
  · exact (Depths.le_raise _ _).trans hs.2

theorem StackOk.exact {place : Place} {handlers : List Frame} {m : Mask} {d : Depths}
    (h : StackOk handed base place handlers m d) :
    Exact handed m d ∨ ∃ l, Exact handed m (d.raise l) := by
  cases handlers with
  | nil => exact h.1.exact
  | cons frame rest => exact h.1.exact

theorem StackOk.base_le {place : Place} {handlers : List Frame} {m : Mask} {d : Depths}
    (h : StackOk handed base place handlers m d) : base.Le d := by
  induction handlers generalizing m d with
  | nil => exact h.2
  | cons frame rest ih => exact (ih h.2.2).trans h.1.found_le

theorem blocks_of_exact {m : Mask} {d : Depths} {s : Owned}
    (h : Exact handed m d ∨ ∃ l, Exact handed m (d.raise l)) (hs : handed s = false)
    (hd : shouldBlock s d = true) : m (.owned s) = true := by
  rcases h with hex | ⟨l, hex⟩
  · rw [hex s hs, hd]
  · rw [hex s hs, shouldBlock_raise l hd]

/-- A delivery finds the mask exact where its own signal, and the reschedule, are concerned. -/
theorem Exact.deliver {m : Mask} {d : Depths} {s : Owned}
    (h : Exact handed m d ∨ ∃ l, Exact handed m (d.raise l)) (hs : handed s = false)
    (hopen : m (.owned s) = false) :
    Exact handed (sigBlock (delivery s) m) (d.raise s.region) ∧
      (s = .reschedule → d = Depths.zero) := by
  cases s with
  | timer =>
      refine ⟨?_, fun heq => by cases heq⟩
      intro s' _
      show (delivery .timer (.owned s') || m (.owned s')) = _
      rw [show Owned.timer.region = Level.interrupt from rfl, shouldBlock_interrupt]
      cases s' <;> rfl
  | reschedule =>
      -- the signal was open, so this is baseline and the mask is exact
      obtain ⟨hzero, hexact⟩ := baseline_of_exact h hs hopen
      refine ⟨?_, fun _ => hzero⟩
      intro s' hs'
      show (delivery .reschedule (.owned s') || m (.owned s')) = _
      rw [hexact s' hs', hzero]
      cases s' <;> rfl

/-- The timer's delivery blocks the reschedule signal too, so the port must hold it as well. -/
theorem agree_delivery {s : Owned} (hs : handed s = false)
    (hboth : s = .timer → handed .reschedule = false) (m : Mask) :
    Agree handed m (sigBlock (delivery s) m) := by
  intro sig hsig
  have hnot : delivery s sig = false := by
    cases sig with
    | other n => cases s <;> rfl
    | owned s' =>
        have hback : handed s' = true := by
          cases h : handed s' with
          | true => rfl
          | false => exact absurd ⟨s', rfl, h⟩ hsig
        cases s with
        | reschedule =>
            cases s' with
            | reschedule => rw [hs] at hback; cases hback
            | timer => rfl
        | timer =>
            cases s' with
            | reschedule => rw [hboth rfl] at hback; cases hback
            | timer => rw [hs] at hback; cases hback
  show (delivery s sig || m sig) = m sig
  rw [hnot, Bool.false_or]

/-! ### The step -/

/-- A handler that goes on keeps the mask it interrupted. -/
theorem agree_saved {m : Mask} {frame frame' : Frame} {rest : List Frame}
    (h : ∀ f ∈ frame :: rest, Agree handed m f.saved) (hsaved : frame'.saved = frame.saved) :
    ∀ f ∈ frame' :: rest, Agree handed m f.saved := by
  intro f hf
  rcases List.mem_cons.1 hf with rfl | hf
  · rw [hsaved]
    exact h frame List.mem_cons_self
  · exact h f (List.mem_cons_of_mem _ hf)

omit [DecidableEq Tid] in
theorem Inv.operate {own : Tid → Mask} {c c' : Core Tid} {a : Option Op} (hi : Inv handed base own c)
    (h : c.operate handed base a = some c') : Inv handed base own c' := by
  obtain ⟨hstack, hmask, hsaved, hparked⟩ := hi
  unfold Core.operate at h
  split at h
  · next hnil =>
      rw [hnil] at hstack
      obtain ⟨⟨m, d, place⟩, hop, rfl⟩ := Option.map_eq_some_iff.1 h
      obtain ⟨hplace, hfloor, hagree⟩ := opStep_ok hop hstack.1 hstack.2
      refine ⟨?_, hmask.trans hagree, hsaved, hparked⟩
      show StackOk handed base place c.handlers m d
      rw [hnil]
      exact ⟨hplace, hfloor⟩
  · next source place saved found rest hcons =>
      rw [hcons] at hstack hsaved
      obtain ⟨⟨m, d, place'⟩, hop, rfl⟩ := Option.map_eq_some_iff.1 h
      obtain ⟨hstage, hsource, hrest⟩ := hstack
      obtain ⟨hplace, hfloor, hagree⟩ := opStep_ok hop hstage.1 hstage.2
      exact ⟨⟨⟨hplace, hfloor⟩, hsource, hrest⟩, hmask.trans hagree, agree_saved hsaved rfl, hparked⟩
  · cases h

theorem Inv.next {own : Tid → Mask} {c c' : Core Tid} {a : Act Tid}
    (hdormant : handed .reschedule = true → handed .timer = false → 0 < base.interrupt)
    (hi : Inv handed base own c) (h : c.next handed base a = some c') : Inv handed base own c' := by
  cases a with
  | call op => exact hi.operate h
  | go =>
      unfold Core.next at h
      dsimp only at h
      split at h
      · next source saved found rest hcons =>
          obtain rfl := Option.some.inj h
          obtain ⟨hstack, hmask, hsaved, hparked⟩ := hi
          rw [hcons] at hstack hsaved
          obtain ⟨⟨hfound, hexact⟩, hsource, hrest⟩ := hstack
          refine ⟨⟨⟨?_, ?_⟩, hsource, hrest⟩, hmask, agree_saved hsaved rfl, hparked⟩
          · show Exact handed c.mask (c.depths.raise source.region)
            rw [hfound]
            exact hexact
          · show (found.raise source.region).Le (c.depths.raise source.region)
            rw [hfound]
            exact ⟨Nat.le_refl _, Nat.le_refl _⟩
      · exact hi.operate h
  | deliver s =>
      unfold Core.next at h
      dsimp only at h
      split at h
      · cases h
      · next hopen =>
          obtain rfl := Option.some.inj h
          obtain ⟨hstack, hmask, hsaved, hparked⟩ := hi
          have hopen' : c.mask (.owned s) = false ∧ handed s = false := by simpa using hopen
          obtain ⟨hm, hs⟩ := hopen'
          obtain ⟨hexact, hzero⟩ := Exact.deliver hstack.exact hs hm
          have hboth : s = .timer → handed .reschedule = false := by
            rintro rfl
            cases hr : handed .reschedule with
            | false => rfl
            | true =>
                -- the timer alone is held in the dormant region only, where it is blocked
                have hpos := Nat.lt_of_lt_of_le (hdormant hr hs) hstack.base_le.1
                have hblock : shouldBlock .timer c.depths = true := by simp [shouldBlock, hpos]
                rw [blocks_of_exact hstack.exact hs hblock] at hm
                cases hm
          refine ⟨⟨⟨rfl, hexact⟩, hzero, hstack⟩, hmask.trans (agree_delivery hs hboth c.mask), ?_, hparked⟩
          intro h hmem
          rcases List.mem_cons.1 hmem with rfl | hmem
          · exact hmask
          · exact hsaved h hmem
  | leave =>
      unfold Core.next at h
      dsimp only at h
      split at h
      · next source saved found rest hcons =>
          split at h
          · next hbalanced =>
              obtain rfl := Option.some.inj h
              obtain ⟨hstack, hmask, hsaved, hparked⟩ := hi
              rw [hcons] at hstack hsaved
              obtain ⟨hstage, hsource, hrest⟩ := hstack
              refine ⟨⟨⟨?_, ?_⟩, hsource, hrest⟩, hmask, agree_saved hsaved rfl, hparked⟩
              · show c.depths.lower source.region = found
                rw [hbalanced, Depths.lower_raise]
              · show Exact handed c.mask (found.raise source.region)
                rw [← hbalanced]
                exact hstage.1
          · cases h
      · cases h
  | ret t =>
      unfold Core.next at h
      dsimp only at h
      split at h
      · next source saved found rest hcons =>
          obtain ⟨hstack, hmask, hsaved, hparked⟩ := hi
          rw [hcons] at hstack hsaved
          obtain ⟨⟨hfound, -⟩, hsource, hrest⟩ := hstack
          split at h
          · obtain rfl := Option.some.inj h
            refine ⟨?_, hsaved _ List.mem_cons_self, ?_, hparked⟩
            · show StackOk handed base c.place rest saved c.depths
              rw [hfound]
              exact hrest
            · intro h hmem
              exact hsaved h (List.mem_cons_of_mem _ hmem)
          · split at h
            · next mask place hother =>
                obtain rfl := Option.some.inj h
                -- the reschedule handler was taken at baseline, so the other thread finds its depths
                have hfound' : c.depths = Depths.zero := hfound.trans (hsource rfl)
                have hzero : found = Depths.zero := hsource rfl
                obtain ⟨hplace, hagree⟩ := hparked t mask place hother
                refine ⟨?_, hagree, ?_, ?_⟩
                · refine ⟨?_, ?_⟩
                  · show PlaceOk handed mask c.depths place
                    rw [hfound']
                    exact hplace
                  · show base.Le c.depths
                    rw [hfound]
                    exact hrest.2
                · intro h hmem
                  cases hmem
                · intro t' m' place' ht'
                  dsimp only at ht'
                  by_cases hself : t' = c.thread
                  · subst hself
                    rw [Function.update_self, Option.some.injEq, Prod.mk.injEq] at ht'
                    obtain ⟨rfl, rfl⟩ := ht'
                    refine ⟨?_, hsaved _ List.mem_cons_self⟩
                    have := hrest.1
                    rw [hzero] at this
                    exact this
                  · rw [Function.update_of_ne hself] at ht'
                    by_cases ht : t' = t
                    · subst ht
                      rw [Function.update_self] at ht'
                      cases ht'
                    · rw [Function.update_of_ne ht] at ht'
                      exact hparked t' m' place' ht'
            · cases h
      · cases h

/-! ### The result -/

variable (handed) (Tid)

/-- Where the sequences start: a thread between operations at the depths `base`, with the mask these
demand, and the other threads at baseline; on the other signals each thread has a mask of its own.  The
timer alone is held only in the dormant region, after a run whose time source is still open. -/
structure Start where
  base : Depths
  thread : Tid
  own : Tid → Mask
  exact : Exact handed (own thread) base
  others : ∀ t, t ≠ thread → Exact handed (own t) Depths.zero
  dormant : handed .reschedule = true → handed .timer = false → 0 < base.interrupt

variable {handed} {Tid}

def Start.core (start : Start handed Tid) : Core Tid where
  mask := start.own start.thread
  depths := start.base
  thread := start.thread
  place := .idle
  handlers := []
  parked := fun t => if t = start.thread then none else some (start.own t, .idle)

theorem Start.inv (start : Start handed Tid) : Inv handed start.base start.own start.core := by
  refine ⟨⟨start.exact, Nat.le_refl _, Nat.le_refl _⟩, Agree.refl _, ?_, ?_⟩
  · intro h hmem
    cases hmem
  · intro t m place ht
    have ht' : (if t = start.thread then none else some (start.own t, Place.idle)) = some (m, place) := ht
    split at ht'
    · cases ht'
    · next hne =>
        obtain ⟨rfl, rfl⟩ := Prod.mk.inj (Option.some.inj ht')
        exact ⟨start.others t hne, Agree.refl _⟩

/-- **The mask follows the depths.**  For every sequence of operations of the threads of a core, nested
or overlapping, with handlers delivered before any step of them and operations of their own, and
whichever thread the reschedule handler returns into: in every state the mask blocks every held signal
the depths demand; when whoever runs is between operations it blocks exactly these; and every signal
that is not held, because the port does not own it or has handed it back, is as the running thread has
it itself. -/
theorem mask_follows_depths (start : Start handed Tid) {as : List (Act Tid)} {c : Core Tid}
    (h : run (Core.next handed start.base) start.core as = some c) :
    (∀ s, handed s = false → shouldBlock s c.depths = true → c.mask (.owned s) = true) ∧
    (c.AtRest → ∀ s, handed s = false → c.mask (.owned s) = shouldBlock s c.depths) ∧
    (∀ sig, ¬ Held handed sig → c.mask sig = start.own c.thread sig) := by
  have hi : Inv handed start.base start.own c :=
    run_invariant (fun _ _ _ hs hstep => Inv.next start.dormant hs hstep) start.inv h
  refine ⟨?_, ?_, hi.mask⟩
  · intro s hs hd
    exact blocks_of_exact hi.stack.exact hs hd
  · intro hrest s hs
    have hstack := hi.stack
    unfold Core.AtRest at hrest
    split at hrest
    · next hnil =>
        rw [hnil, hrest] at hstack
        exact hstack.1 s hs
    · next frame rest hcons =>
        rw [hcons] at hstack
        obtain ⟨hstage, -⟩ := hstack
        unfold StageOk at hstage
        rw [hrest] at hstage
        exact hstage.1 s hs

/-- One thread that blocks one signal of its own, nothing handed back. -/
def plainStart : Start (fun _ => false) Unit where
  base := ⟨0, 0⟩
  thread := ()
  own := fun _ sig => sig == .other 10
  exact := fun s _ => by cases s <;> rfl
  others := fun t ht => absurd rfl ht
  dormant := fun h => absurd h Bool.false_ne_true

/-- An interrupt disable and a preemption disable that overlap, with a timer handler between the
lowering of the first and its system calls' end: at the end the mask is the thread's own again. -/
theorem mask_follows_depths_overlap :
    ∃ c : Core Unit, run (Core.next (fun _ => false) ⟨0, 0⟩) plainStart.core
      [.call (.raise .interrupt), .go, .go, .call (.raise .preempt), .go, .go,
        .call (.lower .interrupt), .go, .go, .go, .deliver .timer, .go, .leave, .ret (),
        .call (.lower .preempt), .go, .go, .go] = some c ∧
      (∀ s, c.mask (.owned s) = shouldBlock s c.depths) ∧ c.mask (.other 10) = true := by
  obtain ⟨c, hc, hend⟩ := Option.map_eq_some_iff.1
    (show (run (Core.next (fun _ => false) ⟨0, 0⟩) plainStart.core
      [.call (.raise .interrupt), .go, .go, .call (.raise .preempt), .go, .go,
        .call (.lower .interrupt), .go, .go, .go, .deliver .timer, .go, .leave, .ret (),
        .call (.lower .preempt), .go, .go, .go]).map (fun c => (c.handlers, c.place)) =
      some ([], .idle) from rfl)
  obtain ⟨hhandlers, hplace⟩ := Prod.mk.inj hend
  obtain ⟨-, hexact, hown⟩ := mask_follows_depths plainStart hc
  have hrest : c.AtRest := by
    unfold Core.AtRest
    rw [hhandlers]
    exact hplace
  refine ⟨c, hc, fun s => hexact hrest s rfl, ?_⟩
  rw [hown (.other 10)]
  · rfl
  · rintro ⟨s, hs, -⟩
    cases hs

end

end Cyros.Port.LinuxMask
