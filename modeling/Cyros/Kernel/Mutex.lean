import Cyros.Kernel.Untouched

/-!
# Kernel mutexes

`base_mutex` over the waits of `Waits`, with every shared word: the owner, the slot in which its holder has
it filed (`held_slot`), the holders' slots and masks, and the inheritance cache of its queue.

* `lock` takes a free mutex with one exchange of the owner word and files it in a slot of its own; otherwise
  it runs the loop of arm, poll, park and disarm until it finds itself the owner.
* `unlock` takes the mutex out of its slot, then hands it over under the queue's lock: the owner word goes to
  the head of the queue, or to nobody, and the releasing core files the mutex for the new owner.
* `claim_slot` is made in its own steps in both places.  A claim that finds no slot stops at its assertion.
* A queue's lock is held over several steps by a hand-over only (`queueLock`); arms and disarms take it in
  one step.  The hand-over's node is taken with the last of its steps, which nobody can tell from the first:
  whoever looks at the queue takes the lock.
* Other queues are used in any way, and a thread may be made ready at any time by any other wake.
-/

namespace Cyros.Kernel

open Cyros.Lib

inductive MutexQueue (M Q : Type) where
  | mutex (m : M)
  | other (q : Q)
  deriving DecidableEq

/-- Where a call of `claim_slot` stands. -/
inductive Claim where
  /-- Before the exchange of slot `i`. -/
  | scan (i : ℕ)
  /-- The slot is claimed, `held_slot` is not written. -/
  | store (i : Fin 4)
  /-- The bit of the mask is not set. -/
  | mark (i : Fin 4)
  deriving DecidableEq

/-- Where a call of `retire_held` stands: before the bit, the slot and `held_slot` are cleared. -/
inductive Retire where
  | mask
  | slot (i : Fin 4)
  | word
  deriving DecidableEq

/-- Where a thread stands in its calls on mutexes. -/
inductive MutexStage {n : ℕ} (T : Fin n → Type) (M : Type) where
  | idle
  /-- Before the exchange of `take_if_free`, in `lock` or in `try_lock`. -/
  | trying (m : M) (blocking : Bool)
  /-- Owner by its own exchange, in the loop of `lock` or before it: before the test of `register_held`. -/
  | checking (m : M) (looping : Bool)
  | registering (m : M) (looping : Bool) (claim : Claim)
  /-- In the loop of `lock`. -/
  | looping (m : M)
  | retiring (m : M) (retire : Retire)
  /-- Before the queue's lock is taken for the hand-over. -/
  | entering (m : M)
  /-- Before the owner word is written. -/
  | committing (m : M)
  /-- Filing the mutex for the new owner. -/
  | filing (m : M) (chosen : Σ c, T c) (claim : Claim)

def MutexStage.isIdle {n : ℕ} {T : Fin n → Type} {M : Type} : MutexStage T M → Bool
  | .idle => true
  | _ => false

/-- The mutex whose words the thread is about to change. -/
def MutexStage.works {n : ℕ} {T : Fin n → Type} {M : Type} : MutexStage T M → Option M
  | .idle | .trying .. | .looping _ => none
  | .checking m _ | .registering m _ _ | .retiring m _ | .entering m | .committing m | .filing m _ _ =>
      some m

structure Mutexes {n : ℕ} (T : Fin n → Type) (M Q : Type) where
  waits : Waits T (MutexQueue M Q)
  owner : M → Option (Σ c, T c)
  /-- `held_slots` of each thread. -/
  heldSlots : (Σ c, T c) → Fin 4 → Option M
  /-- `held_slot`; `none` is `not_held`. -/
  heldSlot : M → Option (Fin 4)
  topPriority : M → ℕ
  mayHaveBridges : M → Bool
  queueLock : M → Bool
  stage : (Σ c, T c) → MutexStage T M
  /-- The thread is between a successful `lock` or `try_lock` and its `unlock`. -/
  inside : (Σ c, T c) → M → Bool

inductive MutexAct {n : ℕ} (T : Fin n → Type) (M Q : Type) where
  /-- A step that touches no mutex. -/
  | waits (act : WaitAct T (MutexQueue M Q))
  | lock (t : Σ c, T c) (m : M)
  | tryLock (t : Σ c, T c) (m : M)
  /-- The exchange of `take_if_free`. -/
  | attempt (t : Σ c, T c)
  /-- The next step of `register_held`. -/
  | register (t : Σ c, T c)
  /-- Another pass of the loop, and its steps. -/
  | loop (t : Σ c, T c)
  | arm (t : Σ c, T c)
  /-- `acquire_condition` -/
  | poll (t : Σ c, T c)
  | disarm (t : Σ c, T c)
  /-- The loop ends. -/
  | acquired (t : Σ c, T c)
  | unlock (t : Σ c, T c) (m : M)
  /-- The next step of `unlock`. -/
  | release (t : Σ c, T c)

namespace Mutexes

variable {n : ℕ} {T : Fin n → Type} {M Q : Type}

def mask (S : Mutexes T M Q) (t : Σ c, T c) : BitVec 8 := S.waits.heldMask t

/-- The bit of a slot, `1U << slot`. -/
def slotBit (i : Fin 4) : BitVec 8 := 1#8 <<< i.val

/-- `no_waiter`, above every priority. -/
def noWaiter : ℕ := 255

variable [∀ c, DecidableEq (T c)] [DecidableEq M]

def setStage (S : Mutexes T M Q) (t : Σ c, T c) (g : MutexStage T M) : Mutexes T M Q :=
  { S with stage := Function.update S.stage t g }

def setOwner (S : Mutexes T M Q) (m : M) (o : Option (Σ c, T c)) : Mutexes T M Q :=
  { S with owner := Function.update S.owner m o }

def setSlot (S : Mutexes T M Q) (t : Σ c, T c) (i : Fin 4) (m : Option M) : Mutexes T M Q :=
  { S with heldSlots := Function.update S.heldSlots t (Function.update (S.heldSlots t) i m) }

def setHeldSlot (S : Mutexes T M Q) (m : M) (i : Option (Fin 4)) : Mutexes T M Q :=
  { S with heldSlot := Function.update S.heldSlot m i }

def setInside (S : Mutexes T M Q) (t : Σ c, T c) (m : M) (b : Bool) : Mutexes T M Q :=
  { S with inside := Function.update S.inside t (Function.update (S.inside t) m b) }

def setLock (S : Mutexes T M Q) (m : M) (b : Bool) : Mutexes T M Q :=
  { S with queueLock := Function.update S.queueLock m b }

omit [∀ c, DecidableEq (T c)] in
/-- `refresh_top` -/
def refreshTop (S : Mutexes T M Q) (m : M) : Mutexes T M Q :=
  match S.waits.queue (.mutex m) with
  | [] => { S with
      topPriority := Function.update S.topPriority m noWaiter
      mayHaveBridges := Function.update S.mayHaveBridges m false }
  | first :: _ => { S with
      topPriority := Function.update S.topPriority m (S.waits.basePriority first.1) }

/-- The steps of `claim_slot` for `t` up to the mask. -/
def claimStep (S : Mutexes T M Q) (t : Σ c, T c) (m : M) : Claim → Option (Mutexes T M Q × Claim)
  | .scan i =>
      if h : i < 4 then
        if S.heldSlots t ⟨i, h⟩ = none then some (S.setSlot t ⟨i, h⟩ (some m), .store ⟨i, h⟩)
        else some (S, .scan (i + 1))
      else none
  | .store i => some (S.setHeldSlot m (some i), .mark i)
  | .mark _ => none

variable [DecidableEq Q] [∀ c, Fintype (T c)]

def waitStep (S : Mutexes T M Q) (act : WaitAct T (MutexQueue M Q)) : Option (Mutexes T M Q) :=
  (S.waits.next act).map fun v => { S with waits := v }

/-- The mutex that the thread waits for. -/
def onMutex (p : WaitPlace (MutexQueue M Q)) : Option M :=
  match p.source with
  | some (.mutex m) => some m
  | _ => none

/-- The steps of a pass that are left as they are. -/
def allowsPass (S : Mutexes T M Q) (t : Σ c, T c) : PassAct (T t.1) (MutexQueue M Q) → Bool
  | .start (.other _) none | .start (.other _) (some (.other _)) =>
      (S.stage t).isIdle && (onMutex (S.waits.place t)).isNone
  | .start .. => false
  | .settle | .commit _ => (S.stage t).works.isNone
  | _ => (S.stage t).isIdle && (onMutex (S.waits.place t)).isNone

/-- The steps that touch no mutex.  A thread blocks by itself and exits outside its calls. -/
def allows (S : Mutexes T M Q) : WaitAct T (MutexQueue M Q) → Bool
  | .core _ (.hold _) => false
  | .core c .prepare | .core c .unprepare | .core c (.commitToBlock _) | .core c .threadExit =>
      (S.waits.cores c).runningThread.all fun t => (S.stage ⟨c, t⟩).isIdle
  | .wake (.mutex _) _ | .wake (.other _) (.commit _) => false
  | .core .. | .call .. | .wake (.other _) _ => true
  | .pass t act => S.allowsPass t act

/-- What follows `register_held`: the poll of the loop finds the thread the owner, or the call returns. -/
def registered (S : Mutexes T M Q) (t : Σ c, T c) (m : M) (loops : Bool) : Mutexes T M Q :=
  if loops then S.setStage t (.looping m) else (S.setStage t .idle).setInside t m true

/-- Steps of `lock` and `try_lock` before the loop. -/
def lockStep (S : Mutexes T M Q) : MutexAct T M Q → Option (Mutexes T M Q)
  | .lock t m => match S.stage t with
    | .idle =>
        if S.waits.executes t ∧ S.waits.place t = .outside ∧ S.owner m ≠ some t then
          some (S.setStage t (.trying m true))
        else none
    | _ => none
  | .tryLock t m => match S.stage t with
    | .idle =>
        if S.waits.executes t ∧ S.waits.place t = .outside then some (S.setStage t (.trying m false)) else none
    | _ => none
  | .attempt t => match S.stage t with
    | .trying m blocking =>
        if S.waits.executes t then
          some (if S.owner m = none then (S.setOwner m (some t)).setStage t (.checking m false)
            else S.setStage t (if blocking then .looping m else .idle))
        else none
    | _ => none
  | .register t =>
      if S.waits.executes t then match S.stage t with
        | .checking m loops =>
            -- registered already: nothing is claimed
            if S.heldSlot m ≠ none then some (S.registered t m loops)
            else some (S.setStage t (.registering m loops (.scan 0)))
        | .registering m loops (.mark i) =>
            (S.waitStep (.core t.1 (.hold (S.mask t ||| slotBit i)))).map (·.registered t m loops)
        | .registering m loops claim =>
            (S.claimStep t m claim).map fun x => x.1.setStage t (.registering m loops x.2)
        | _ => none
      else none
  | _ => none

/-- Steps of the loop of `lock`. -/
def loopStep (S : Mutexes T M Q) : MutexAct T M Q → Option (Mutexes T M Q)
  | .loop t => match S.stage t with
    | .looping m =>
        if S.owner m = some t then none else S.waitStep (.pass t (.start (.mutex m) none))
    | _ => none
  | .arm t => match S.stage t, S.waits.place t with
    | .looping m, .arming (.mutex _) _ =>
        if S.queueLock m then none
        else (S.waitStep (.pass t .arm)).map fun S' => refreshTop { S' with
          mayHaveBridges := Function.update S.mayHaveBridges m (S.mayHaveBridges m || S.mask t != 0) } m
    | _, _ => none
  | .poll t => match S.stage t, S.waits.place t with
    | .looping m, .polling _ _ =>
        if S.owner m = none then
          if S.waits.executes t then some ((S.setOwner m (some t)).setStage t (.checking m true)) else none
        else S.waitStep (.pass t (.poll (decide (S.owner m = some t)) false))
    | _, _ => none
  | .disarm t => match S.stage t, S.waits.place t with
    | .looping m, .disarming (.mutex _) _ _ =>
        if S.queueLock m then none
        else (S.waitStep (.pass t .disarm)).map fun S' =>
          if (t, false) ∈ S.waits.queue (.mutex m) then S'.refreshTop m else S'
    | _, _ => none
  | .acquired t => match S.stage t, S.waits.place t with
    | .looping m, .polled .. =>
        if S.owner m = some t then
          (S.waitStep (.pass t .finish)).map fun S' => (S'.setStage t .idle).setInside t m true
        else none
    | _, _ => none
  | _ => none

/-- Steps of `unlock`. -/
def unlockStep (S : Mutexes T M Q) : MutexAct T M Q → Option (Mutexes T M Q)
  | .unlock t m => match S.stage t with
    | .idle =>
        if S.waits.executes t ∧ S.owner m = some t then
          some ((S.setStage t (.retiring m .mask)).setInside t m false)
        else none
    | _ => none
  | .release t =>
      if S.waits.executes t then match S.stage t with
        | .retiring m .mask => match S.heldSlot m with
          | some i =>
              if S.heldSlots t i = some m then
                (S.waitStep (.core t.1 (.hold (S.mask t &&& ~~~slotBit i)))).map
                  (·.setStage t (.retiring m (.slot i)))
              else none
          | none => none
        | .retiring m (.slot i) => some ((S.setSlot t i none).setStage t (.retiring m .word))
        | .retiring m .word => some ((S.setHeldSlot m none).setStage t (.entering m))
        | .entering m => if S.queueLock m then none else some ((S.setLock m true).setStage t (.committing m))
        | .committing m => match S.waits.queue (.mutex m) with
          | [] => some (((S.setOwner m none).setLock m false).setStage t .idle)
          | first :: _ => some ((S.setOwner m (some first.1)).setStage t (.filing m first.1 (.scan 0)))
        | .filing m _ (.mark i) =>
            (S.waitStep (.wake (.mutex m) (.commit (slotBit i)))).map fun S' =>
              ((S'.refreshTop m).setLock m false).setStage t .idle
        | .filing m chosen claim =>
            (S.claimStep chosen m claim).map fun x => x.1.setStage t (.filing m chosen x.2)
        | _ => none
      else none
  | _ => none

def next (S : Mutexes T M Q) (act : MutexAct T M Q) : Option (Mutexes T M Q) :=
  match act with
  | .waits act => if S.allows act then S.waitStep act else none
  | .lock .. | .tryLock .. | .attempt _ | .register _ => S.lockStep act
  | .loop _ | .arm _ | .poll _ | .disarm _ | .acquired _ => S.loopStep act
  | .unlock .. | .release _ => S.unlockStep act

def boot (idle : ∀ c, T c) (basePriority : ∀ c, T c → Level) (threads : ∀ c, List (T c)) :
    Mutexes T M Q where
  waits := Waits.boot idle basePriority threads
  owner := fun _ => none
  heldSlots := fun _ _ => none
  heldSlot := fun _ => none
  topPriority := fun _ => noWaiter
  mayHaveBridges := fun _ => false
  queueLock := fun _ => false
  stage := fun _ => .idle
  inside := fun _ _ => false

/-- **What a step can do.** -/
inductive Effect (S : Mutexes T M Q) : MutexAct T M Q → Mutexes T M Q → Prop
  | waits {act v} (hallow : S.allows act = true) (hv : S.waits.next act = some v) :
      Effect S (.waits act) { S with waits := v }
  | lock {t m} (hs : S.stage t = .idle) (hp : S.waits.place t = .outside) (ho : S.owner m ≠ some t) :
      Effect S (.lock t m) (S.setStage t (.trying m true))
  | tryLock {t m} (hs : S.stage t = .idle) (hp : S.waits.place t = .outside) :
      Effect S (.tryLock t m) (S.setStage t (.trying m false))
  | attemptTakes {t m blocking} (hs : S.stage t = .trying m blocking) (hfree : S.owner m = none) :
      Effect S (.attempt t) ((S.setOwner m (some t)).setStage t (.checking m false))
  | attemptFails {t m blocking} (hs : S.stage t = .trying m blocking) :
      Effect S (.attempt t) (S.setStage t (if blocking then .looping m else .idle))
  | registered {t m loops} (hs : S.stage t = .checking m loops) (hheld : S.heldSlot m ≠ none) :
      Effect S (.register t) (S.registered t m loops)
  | registers {t m loops} (hs : S.stage t = .checking m loops) :
      Effect S (.register t) (S.setStage t (.registering m loops (.scan 0)))
  | marks {t m loops i v} (hrun : S.waits.executes t = true) (hs : S.stage t = .registering m loops (.mark i))
      (hv : S.waits.next (.core t.1 (.hold (S.mask t ||| slotBit i))) = some v) :
      Effect S (.register t) (Mutexes.registered { S with waits := v } t m loops)
  | claims {t m loops claim S₁ claim'} (hs : S.stage t = .registering m loops claim)
      (hclaim : S.claimStep t m claim = some (S₁, claim')) :
      Effect S (.register t) (S₁.setStage t (.registering m loops claim'))
  | loop {t m v} (hs : S.stage t = .looping m) (hv : S.waits.next (.pass t (.start (.mutex m) none)) = some v) :
      Effect S (.loop t) { S with waits := v }
  | arm {t m x cancel v} (hs : S.stage t = .looping m) (hp : S.waits.place t = .arming (.mutex x) cancel)
      (hlock : S.queueLock m = false) (hv : S.waits.next (.pass t .arm) = some v) :
      Effect S (.arm t) (refreshTop { S with
        waits := v
        mayHaveBridges := Function.update S.mayHaveBridges m (S.mayHaveBridges m || S.mask t != 0) } m)
  | pollTakes {t m w cancel} (hs : S.stage t = .looping m) (hp : S.waits.place t = .polling w cancel)
      (hfree : S.owner m = none) : Effect S (.poll t) ((S.setOwner m (some t)).setStage t (.checking m true))
  | polls {t m w cancel v} (hs : S.stage t = .looping m) (hp : S.waits.place t = .polling w cancel)
      (hheld : S.owner m ≠ none)
      (hv : S.waits.next (.pass t (.poll (decide (S.owner m = some t)) false)) = some v) :
      Effect S (.poll t) { S with waits := v }
  | disarm {t m x cancel satisfied v} (hs : S.stage t = .looping m)
      (hp : S.waits.place t = .disarming (.mutex x) cancel satisfied) (hlock : S.queueLock m = false)
      (hv : S.waits.next (.pass t .disarm) = some v) :
      Effect S (.disarm t) (if (t, false) ∈ S.waits.queue (.mutex m) then refreshTop { S with waits := v } m
        else { S with waits := v })
  | acquired {t m v} (hs : S.stage t = .looping m) (ho : S.owner m = some t)
      (hv : S.waits.next (.pass t .finish) = some v) :
      Effect S (.acquired t) ((setStage { S with waits := v } t .idle).setInside t m true)
  | unlock {t m} (hs : S.stage t = .idle) (ho : S.owner m = some t) :
      Effect S (.unlock t m) ((S.setStage t (.retiring m .mask)).setInside t m false)
  | retireMask {t m i v} (hrun : S.waits.executes t = true) (hs : S.stage t = .retiring m .mask)
      (hheld : S.heldSlot m = some i) (hslot : S.heldSlots t i = some m)
      (hv : S.waits.next (.core t.1 (.hold (S.mask t &&& ~~~slotBit i))) = some v) :
      Effect S (.release t) (setStage { S with waits := v } t (.retiring m (.slot i)))
  | retireSlot {t m i} (hs : S.stage t = .retiring m (.slot i)) :
      Effect S (.release t) ((S.setSlot t i none).setStage t (.retiring m .word))
  | retireWord {t m} (hs : S.stage t = .retiring m .word) :
      Effect S (.release t) ((S.setHeldSlot m none).setStage t (.entering m))
  | enter {t m} (hs : S.stage t = .entering m) :
      Effect S (.release t) ((S.setLock m true).setStage t (.committing m))
  | frees {t m} (hs : S.stage t = .committing m) (hq : S.waits.queue (.mutex m) = []) :
      Effect S (.release t) (((S.setOwner m none).setLock m false).setStage t .idle)
  | hands {t m first b rest} (hs : S.stage t = .committing m)
      (hq : S.waits.queue (.mutex m) = (first, b) :: rest) :
      Effect S (.release t) ((S.setOwner m (some first)).setStage t (.filing m first (.scan 0)))
  | handedOver {t m chosen i v} (hs : S.stage t = .filing m chosen (.mark i))
      (hv : S.waits.next (.wake (.mutex m) (.commit (slotBit i))) = some v) :
      Effect S (.release t) (((refreshTop { S with waits := v } m).setLock m false).setStage t .idle)
  | files {t m chosen claim S₁ claim'} (hs : S.stage t = .filing m chosen claim)
      (hclaim : S.claimStep chosen m claim = some (S₁, claim')) :
      Effect S (.release t) (S₁.setStage t (.filing m chosen claim'))

theorem effect_of_next {S S' : Mutexes T M Q} {act : MutexAct T M Q} (h : S.next act = some S') :
    S.Effect act S' := by
  -- the maps over a step of the waits are joined, so that each case is one map
  cases act <;> simp only [next, lockStep, loopStep, unlockStep, waitStep, Option.map_map, Function.comp_def] at h <;>
    grind [Effect, Option.map_eq_some_iff]

end Mutexes

end Cyros.Kernel
