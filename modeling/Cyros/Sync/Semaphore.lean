import Cyros.Kernel.WaitSteps

/-!
# Counting semaphores

`semaphore` over the waits of `Waits`: a counter, and the queue `w` of those who wait for a token.

* `release` adds its tokens first, then looks for waiters without the queue's lock, and only if it finds
  some wakes as many as it brought tokens.
* A poll takes a token if there is one.  `wait_engine::run` polls `w` armed, and again once its node is
  off the queue; a wake that took the node of a thread whose armed poll had succeeded is passed on.
* Other queues, cancel signals among them, are used in any way, and a thread may be made ready at any time
  by a wake that no release made.

`chosenAt`, `starvedAt` and `TookAt` say what the place of a thread in its wait tells about it.
-/

namespace Cyros.Sync

open Cyros.Lib Cyros.Kernel

/-- A call of `release` under way. -/
inductive Releasing where
  /-- The tokens are in the counter; it has not looked for waiters. -/
  | added (tokens : ℕ)
  | waking (left : ℕ)
  deriving DecidableEq

/-- The wakes it will make if it finds waiters. -/
def Releasing.wakes : Releasing → ℕ
  | .added tokens => tokens
  | .waking left => left

structure Semaphore {n : ℕ} (T : Fin n → Type) (Q : Type) where
  waits : Waits T Q
  counter : ℕ
  releasing : List Releasing
  /-- The thread has made what follows its disarm: the poll without a node, or the pass-on. -/
  after : (Σ c, T c) → Bool
  /-- The thread has taken a token in its present or last call. -/
  took : (Σ c, T c) → Bool
  /-- What the thread's last call returned; `none` during a wait. -/
  answer : (Σ c, T c) → Option Bool
  /-- The tokens released so far. -/
  released : ℕ
  /-- The acquires that have returned with a token. -/
  succeeded : ℕ

inductive SemAct {n : ℕ} (T : Fin n → Type) (Q : Type) where
  /-- A step that is no part of a release or a poll. -/
  | waits (act : WaitAct T Q)
  /-- `release`, by a thread or an interrupt: the tokens. -/
  | release (tokens : ℕ)
  /-- The next step of the `i`-th release under way. -/
  | proceed (i : ℕ)
  /-- `try_acquire` by an interrupt. -/
  | tryAcquireIsr
  /-- `try_acquire` by a thread: the call itself, the first attempt of `acquire`, and a timed acquire past
  its deadline. -/
  | tryAcquire (t : Σ c, T c)
  /-- `wait_on`, with the alarm of a timed acquire. -/
  | wait (t : Σ c, T c) (cancel : Option Q)
  /-- The armed poll; `raised` is what the cancel signal says. -/
  | poll (t : Σ c, T c) (raised : Bool)
  /-- The poll after the disarm. -/
  | pollUnarmed (t : Σ c, T c)
  | passOn (t : Σ c, T c)
  | again (t : Σ c, T c)
  | finish (t : Σ c, T c)

namespace Semaphore

variable {n : ℕ} {T : Fin n → Type} {Q : Type}

section

variable [∀ c, DecidableEq (T c)]

/-- A token goes to the thread. -/
def takeToken (S : Semaphore T Q) (t : Σ c, T c) : Semaphore T Q :=
  { S with counter := S.counter - 1, took := Function.update S.took t true }

def setAfter (S : Semaphore T Q) (t : Σ c, T c) (b : Bool) : Semaphore T Q :=
  { S with after := Function.update S.after t b }

/-- The thread's call returns. -/
def reply (S : Semaphore T Q) (t : Σ c, T c) (b : Bool) : Semaphore T Q :=
  { S with
    answer := Function.update S.answer t (some b)
    after := Function.update S.after t false
    succeeded := S.succeeded + b.toNat }

end

variable [DecidableEq Q]

/-- Its waits are begun, polled and ended by the steps below. -/
def allowsPass (w : Q) (p : WaitPlace Q) {Tid : Type} : PassAct Tid Q → Bool
  | .start w' cancel => p.source != some w && w' != w && cancel != some w
  | .poll .. | .finish => p.source != some w
  | _ => true

/-- The steps of the waits that are left as they are: the queue `w` is woken by releases and pass-ons
only, and is nobody's cancel signal. -/
def allows (w : Q) (S : Semaphore T Q) : WaitAct T Q → Bool
  | .core .. | .call .. => true
  | .wake q _ => q != w
  | .pass t act => allowsPass w (S.waits.place t) act

variable [∀ c, DecidableEq (T c)] [∀ c, Fintype (T c)]

def waitStep (S : Semaphore T Q) (act : WaitAct T Q) : Option (Semaphore T Q) :=
  (S.waits.next act).map fun v => { S with waits := v }

/-- One step of a release. -/
def proceed (w : Q) (S : Semaphore T Q) (i : ℕ) : Option (Semaphore T Q) :=
  match S.releasing[i]? with
  | none => none
  | some (.added tokens) =>
      some { S with releasing :=
        if S.waits.queue w = [] then S.releasing.eraseIdx i
        else .waking tokens :: S.releasing.eraseIdx i }
  | some (.waking 0) => some { S with releasing := S.releasing.eraseIdx i }
  | some (.waking (left + 1)) =>
      (S.waitStep (.wake w .one)).map
        ({ · with releasing := .waking left :: S.releasing.eraseIdx i })

/-- The steps of a thread in its wait. -/
def waiting (w : Q) (S : Semaphore T Q) : SemAct T Q → Option (Semaphore T Q)
  | .poll t raised => match S.waits.place t with
    | .polling w' _ =>
        if w' ≠ w then none
        else if 0 < S.counter then (S.waitStep (.pass t (.poll true false))).map (·.takeToken t)
        else S.waitStep (.pass t (.poll false raised))
    | _ => none
  | .pollUnarmed t => match S.waits.place t with
    | .polled w' _ false _ =>
        if w' ≠ w ∨ S.after t ∨ !S.waits.executes t then none
        else if 0 < S.counter then some ((S.takeToken t).setAfter t true)
        else some (S.setAfter t true)
    | _ => none
  | .passOn t => match S.waits.place t with
    | .polled w' _ true true =>
        if w' ≠ w ∨ S.after t ∨ !S.waits.executes t then none
        else (S.waitStep (.wake w .one)).map (·.setAfter t true)
    | _ => none
  | .again t => match S.waits.place t with
    | .polled w' cancel false _ =>
        if w' = w ∧ S.after t ∧ !S.took t then
          (S.waitStep (.pass t (.start w cancel))).map (·.setAfter t false)
        else none
    | _ => none
  | .finish t => match S.waits.place t with
    | .polled w' cancel satisfied chosen =>
        if w' ≠ w then none
        else if satisfied then
          if chosen && !S.after t then none else (S.waitStep (.pass t .finish)).map (·.reply t true)
        else if S.after t && (S.took t || cancel.isSome) then
          (S.waitStep (.pass t .finish)).map (·.reply t (S.took t))
        else none
    | _ => none
  | _ => none

def next (w : Q) (S : Semaphore T Q) (act : SemAct T Q) : Option (Semaphore T Q) :=
  match act with
  | .waits act => if S.allows w act then S.waitStep act else none
  | .release tokens => some { S with
      counter := S.counter + tokens
      released := S.released + tokens
      releasing := .added tokens :: S.releasing }
  | .proceed i => S.proceed w i
  | .tryAcquireIsr =>
      some (if 0 < S.counter then { S with counter := S.counter - 1, succeeded := S.succeeded + 1 } else S)
  | .tryAcquire t =>
      if S.waits.executes t ∧ S.waits.place t = .outside then
        some { S with
          counter := S.counter - 1
          took := Function.update S.took t (decide (0 < S.counter))
          answer := Function.update S.answer t (some (decide (0 < S.counter)))
          succeeded := S.succeeded + (decide (0 < S.counter)).toNat }
      else none
  | .wait t cancel =>
      if S.waits.place t = .outside ∧ cancel ≠ some w then
        (S.waitStep (.pass t (.start w cancel))).map fun S' => { S' with
          took := Function.update S.took t false
          answer := Function.update S.answer t none }
      else none
  | .poll .. | .pollUnarmed _ | .passOn _ | .again _ | .finish _ => S.waiting w act

def boot (idle : ∀ c, T c) (basePriority : ∀ c, T c → Level) (threads : ∀ c, List (T c))
    (initial : ℕ) : Semaphore T Q where
  waits := Waits.boot idle basePriority threads
  counter := initial
  releasing := []
  after := fun _ => false
  took := fun _ => false
  answer := fun _ => none
  released := 0
  succeeded := 0

/-! ### What a thread's place says -/

section Views

variable (w : Q)

/-- A wake of `w` has taken the thread's node, and the thread has yet to poll or to pass it on. -/
def chosenAt (queued after : Bool) : WaitPlace Q → Bool
  | .outside | .arming .. => false
  | .armingCancel w' _ | .polling w' _ | .settling w' _ _ | .committing w' _ | .disarming w' _ _ =>
      w' == w && !queued
  | .disarmingCancel w' _ _ chosen => w' == w && chosen
  | .polled w' _ _ chosen => w' == w && chosen && !after

/-- The thread's armed poll found no token, and its node is still on the queue. -/
def starvedAt (queued : Bool) : WaitPlace Q → Bool
  | .settling w' _ satisfied | .disarming w' _ satisfied => w' == w && queued && !satisfied
  | .committing w' _ => w' == w && queued
  | _ => false

/-- Inside a wait on the semaphore, what the place says about the token. -/
def TookAt (took after : Bool) : WaitPlace Q → Prop
  | .outside | .arming .. | .armingCancel .. | .polling .. | .committing .. => took = false ∧ after = false
  | .settling _ _ satisfied | .disarming _ _ satisfied | .disarmingCancel _ _ satisfied _ =>
      took = satisfied ∧ after = false
  | .polled _ _ satisfied _ => after = false ∨ satisfied = true → took = satisfied

structure Told (took after : Bool) (answer : Option Bool) (p : WaitPlace Q) : Prop where
  cancel : p.cancel ≠ some w
  inside : p.source = some w → answer = none ∧ TookAt took after p
  outside : p.source ≠ some w → after = false ∧ ∀ b, answer = some b → took = b

variable {w}

theorem chosenAt_of_ne {p : WaitPlace Q} (h : p.source ≠ some w) (queued after : Bool) :
    chosenAt w queued after p = false := by
  cases p <;> simp_all [WaitPlace.source, chosenAt]

theorem starvedAt_of_ne {p : WaitPlace Q} (h : p.source ≠ some w) (queued : Bool) :
    starvedAt w queued p = false := by
  cases p <;> simp_all [WaitPlace.source, starvedAt]

theorem starvedAt_mono {queued queued' : Bool} (h : queued' = true → queued = true) {p : WaitPlace Q}
    (hp : starvedAt w queued' p = true) : starvedAt w queued p = true := by
  cases p <;> cases queued' <;> simp_all [starvedAt]

section

variable {t : Σ c, T c} {priority : (Σ c, T c) → ℕ} {queue queue' : Q → List ((Σ c, T c) × Bool)}
variable {p p' : WaitPlace Q} {act : PassAct (T t.1) Q}

omit [∀ c, Fintype (T c)] in
theorem passMove_source (hmove : Waits.PassMove t priority queue p act p' queue')
    (hallow : allowsPass w p act = true) (hcancel : p.cancel ≠ some w) :
    (p'.source = some w ↔ p.source = some w) ∧ p'.cancel ≠ some w := by
  cases hmove <;> simp_all [allowsPass, WaitPlace.source, WaitPlace.cancel]

omit [∀ c, Fintype (T c)] in
theorem passMove_inside (hmove : Waits.PassMove t priority queue p act p' queue')
    (hallow : allowsPass w p act = true) (hcancel : p.cancel ≠ some w) (hin : p.source = some w)
    {took after : Bool} (htook : TookAt took after p) :
    TookAt took after p' ∧
      (chosenAt w ((queue w).contains (t, false)) after p = true →
        chosenAt w ((queue' w).contains (t, false)) after p' = true) ∧
      (starvedAt w ((queue' w).contains (t, false)) p' = true →
        starvedAt w ((queue w).contains (t, false)) p = true) := by
  cases hmove with
  | startFirst | startAgain | pollEnds | pollFails | finish => simp_all [allowsPass, WaitPlace.source]
  | armCancel w' c =>
      have hne : w ≠ c := fun he => hcancel (by simp [WaitPlace.cancel, he])
      rw [Function.update_of_ne hne]
      simp_all [chosenAt, starvedAt, TookAt]
  | arm | armFirst | settle | settleAfter | commit | disarm | disarmFirst | disarmCancel =>
      simp_all [WaitPlace.source, WaitPlace.cancel, chosenAt, starvedAt, TookAt]

end

end Views

end Semaphore

end Cyros.Sync
