import Cyros.Sync.WaitViews

/-!
# Semaphores that hand over

`handoff_semaphore` over the waits of `Waits`: a counter, and the queue `w` of those who wait for a token.

* `release` looks for waiters without the queue's lock.  If it sees one it hands each token over, under the
  lock, to the first on the queue, and counts a token where it finds nobody.  If it sees none it counts the
  tokens, looks again, and takes back and hands over what it can of them if there is a waiter now.
* A waiter learns of a hand-over from its disarm, which finds its node gone (`marked`).  Its polls are
  satisfied by the mark, or by a token that is counted.
* One that took a counted token and was handed one too gives one back, by a `release` of its own.

`hand` are the tokens that belong to a thread, by a hand-over or a poll, until its call returns with one of
them; `handed` says that a hand-over chose the thread in its present or last call.
-/

namespace Cyros.Sync

open Cyros.Lib Cyros.Kernel

/-- Where a call of `release` stands. -/
inductive HandingOver where
  /-- Before the first look for waiters. -/
  | looking (tokens : ℕ)
  /-- `hand_over_each`. -/
  | handing (left : ℕ)
  /-- Nobody was seen: before the tokens are counted. -/
  | counting (tokens : ℕ)
  /-- The tokens are counted: before the second look. -/
  | counted (tokens : ℕ)
  /-- `reclaim`: before the next token is taken back. -/
  | reclaiming (left : ℕ)
  /-- `reclaim`, with a token taken back. -/
  | reclaimed (left : ℕ)
  deriving DecidableEq

/-- The tokens that are in the hands of the release. -/
def HandingOver.tokens : HandingOver → ℕ
  | .looking k | .handing k | .counting k => k
  | .counted _ | .reclaiming _ => 0
  | .reclaimed _ => 1

/-- The counted tokens that it will take back if it can. -/
def HandingOver.reclaims : HandingOver → ℕ
  | .looking _ | .handing _ | .counting _ => 0
  | .counted k | .reclaiming k | .reclaimed k => k

/-- A call of `release`: by anybody, or by a waiter that gives a token back. -/
structure HandoffRelease {n : ℕ} (T : Fin n → Type) where
  place : HandingOver
  giver : Option (Σ c, T c)

/-- What a thread has done since its last disarm. -/
inductive AfterDisarm where
  | nothing
  /-- It has told its record whether a wake chose it. -/
  | marked
  /-- Its poll without a node failed. -/
  | failed
  /-- `wait_on` has ended, with this answer. -/
  | ended (taken : Bool)
  /-- It has given back what it had too many of. -/
  | settled (taken : Bool)
  deriving DecidableEq

structure Handoff {n : ℕ} (T : Fin n → Type) (Q : Type) where
  waits : Waits T Q
  counter : ℕ
  releasing : List (HandoffRelease T)
  after : (Σ c, T c) → AfterDisarm
  /-- `chosen_by_wake` of the thread's record. -/
  marked : (Σ c, T c) → Bool
  tookCounted : (Σ c, T c) → Bool
  /-- What the thread's last call returned; `none` during a wait. -/
  answer : (Σ c, T c) → Option Bool
  handed : (Σ c, T c) → Bool
  hand : (Σ c, T c) → ℕ
  /-- The tokens released by callers. -/
  released : ℕ
  /-- The acquires that have returned with a token. -/
  succeeded : ℕ

inductive HandoffAct {n : ℕ} (T : Fin n → Type) (Q : Type) where
  /-- A step that is no part of a release or a poll. -/
  | waits (act : WaitAct T Q)
  /-- `release`, by a thread or an interrupt: the tokens. -/
  | release (tokens : ℕ)
  /-- The next step of the `i`-th release under way. -/
  | proceed (i : ℕ)
  /-- `try_acquire` by an interrupt. -/
  | tryAcquireIsr
  /-- `try_acquire` by a thread: the call itself, the first attempt of `acquire`, and a timed acquire past
  its deadline. -/
  | tryAcquire (t : Σ c, T c)
  /-- `wait_on` with a new record, and with the alarm of a timed acquire. -/
  | wait (t : Σ c, T c) (cancel : Option Q)
  /-- The armed poll; `raised` is what the alarm says. -/
  | poll (t : Σ c, T c) (raised : Bool)
  | mark (t : Σ c, T c)
  /-- A wait whose armed poll was satisfied ends. -/
  | finish (t : Σ c, T c)
  /-- The poll after the disarm. -/
  | pollUnarmed (t : Σ c, T c)
  | again (t : Σ c, T c)
  /-- The alarm ends the wait. -/
  | giveUp (t : Σ c, T c)
  | settle (t : Σ c, T c)
  | reply (t : Σ c, T c)

namespace Handoff

variable {n : ℕ} {T : Fin n → Type} {Q : Type} [∀ c, DecidableEq (T c)]

def setAfter (S : Handoff T Q) (t : Σ c, T c) (a : AfterDisarm) : Handoff T Q :=
  { S with after := Function.update S.after t a }

/-- A token comes to the thread. -/
def gain (S : Handoff T Q) (t : Σ c, T c) : Handoff T Q :=
  { S with hand := Function.update S.hand t (S.hand t + 1) }

/-- `try_satisfy`. -/
def trySatisfy (S : Handoff T Q) (t : Σ c, T c) : Handoff T Q × Bool :=
  if S.marked t then (S, true)
  else if 0 < S.counter then
    ({ S.gain t with counter := S.counter - 1, tookCounted := Function.update S.tookCounted t true }, true)
  else (S, false)

variable [DecidableEq Q] [∀ c, Fintype (T c)]

def waitStep (S : Handoff T Q) (act : WaitAct T Q) : Option (Handoff T Q) :=
  (S.waits.next act).map fun v => { S with waits := v }

/-- `hand_over`: the token goes to the first on the queue, and is counted if there is nobody. -/
def handOver (w : Q) (S : Handoff T Q) : Option (Handoff T Q) :=
  match S.waits.queue w with
  | [] => some { S with counter := S.counter + 1 }
  | first :: _ => (S.waitStep (.wake w .one)).map fun S' =>
      { S'.gain first.1 with handed := Function.update S.handed first.1 true }

def setRelease (S : Handoff T Q) (i : ℕ) (giver : Option (Σ c, T c)) (place : HandingOver) : Handoff T Q :=
  { S with releasing := ⟨place, giver⟩ :: S.releasing.eraseIdx i }

/-- One step of a release. -/
def proceed (w : Q) (S : Handoff T Q) (i : ℕ) : Option (Handoff T Q) :=
  match S.releasing[i]? with
  | none => none
  | some ⟨place, giver⟩ =>
      let done : Handoff T Q := { S with releasing := S.releasing.eraseIdx i }
      match place with
      | .looking tokens =>
          some (S.setRelease i giver (if S.waits.queue w = [] then .counting tokens else .handing tokens))
      | .handing 0 => some done
      | .handing (left + 1) => (S.handOver w).map (·.setRelease i giver (.handing left))
      | .counting tokens =>
          some { S.setRelease i giver (.counted tokens) with counter := S.counter + tokens }
      | .counted tokens =>
          some (if S.waits.queue w = [] then done else S.setRelease i giver (.reclaiming tokens))
      | .reclaiming 0 => some done
      | .reclaiming (left + 1) =>
          some (if 0 < S.counter then
              { S.setRelease i giver (.reclaimed left) with counter := S.counter - 1 }
            else done)
      | .reclaimed left => (S.handOver w).map (·.setRelease i giver (.reclaiming left))

/-- The steps of a thread in its wait. -/
def waiting (w : Q) (S : Handoff T Q) : HandoffAct T Q → Option (Handoff T Q)
  | .poll t raised => match S.waits.place t with
    | .polling w' _ =>
        if w' ≠ w then none
        else match S.trySatisfy t with
          | (S, true) => S.waitStep (.pass t (.poll true false))
          | (S, false) => S.waitStep (.pass t (.poll false raised))
    | _ => none
  | .mark t => match S.waits.place t with
    | .polled w' _ _ chosen =>
        if w' = w ∧ S.after t = .nothing ∧ S.waits.executes t then
          some ({ S with marked := Function.update S.marked t (S.marked t || chosen) }.setAfter t .marked)
        else none
    | _ => none
  | .finish t => match S.waits.place t with
    | .polled w' _ true _ =>
        if w' = w ∧ S.after t = .marked ∧ S.waits.executes t then some (S.setAfter t (.ended true)) else none
    | _ => none
  | .pollUnarmed t => match S.waits.place t with
    | .polled w' _ false _ =>
        if w' = w ∧ S.after t = .marked ∧ S.waits.executes t then
          match S.trySatisfy t with
          | (S, true) => some (S.setAfter t (.ended true))
          | (S, false) => some (S.setAfter t .failed)
        else none
    | _ => none
  | .again t => match S.waits.place t with
    | .polled w' cancel false _ =>
        if w' = w ∧ S.after t = .failed then
          (S.waitStep (.pass t (.start w cancel))).map (·.setAfter t .nothing)
        else none
    | _ => none
  | .giveUp t => match S.waits.place t with
    | .polled w' (some _) false _ =>
        if w' = w ∧ S.after t = .failed ∧ S.waits.executes t then some (S.setAfter t (.ended false)) else none
    | _ => none
  | .settle t => match S.after t with
    | .ended taken =>
        if S.waits.executes t then
          if S.tookCounted t ∧ S.marked t then
            some { S.setAfter t (.settled taken) with
              hand := Function.update S.hand t (S.hand t - 1)
              releasing := ⟨.looking 1, some t⟩ :: S.releasing }
          else some (S.setAfter t (.settled taken))
        else none
    | _ => none
  | .reply t => match S.after t with
    | .settled taken =>
        if S.releasing.any (fun r => r.giver == some t) then none
        else (S.waitStep (.pass t .finish)).map fun S' => { S'.setAfter t .nothing with
          answer := Function.update S.answer t (some taken)
          hand := Function.update S.hand t (S.hand t - taken.toNat)
          succeeded := S.succeeded + taken.toNat }
    | _ => none
  | _ => none

/-- **One step.** -/
def next (w : Q) (S : Handoff T Q) (act : HandoffAct T Q) : Option (Handoff T Q) :=
  match act with
  | .waits act => if leaves w S.waits act then S.waitStep act else none
  | .release tokens => some { S with
      released := S.released + tokens
      releasing := ⟨.looking tokens, none⟩ :: S.releasing }
  | .proceed i => S.proceed w i
  | .tryAcquireIsr =>
      some (if 0 < S.counter then { S with counter := S.counter - 1, succeeded := S.succeeded + 1 } else S)
  | .tryAcquire t =>
      if S.waits.executes t ∧ S.waits.place t = .outside then
        some { S with
          counter := S.counter - 1
          handed := Function.update S.handed t false
          answer := Function.update S.answer t (some (decide (0 < S.counter)))
          succeeded := S.succeeded + (decide (0 < S.counter)).toNat }
      else none
  | .wait t cancel =>
      if S.waits.place t = .outside ∧ cancel ≠ some w then
        (S.waitStep (.pass t (.start w cancel))).map fun S' => { S' with
          marked := Function.update S.marked t false
          tookCounted := Function.update S.tookCounted t false
          handed := Function.update S.handed t false
          answer := Function.update S.answer t none }
      else none
  | act => S.waiting w act

/-- **What a step can do.** -/
inductive Effect (w : Q) (S : Handoff T Q) : HandoffAct T Q → Handoff T Q → Prop
  | waits {act v} (hleave : leaves w S.waits act = true) (hv : S.waits.next act = some v) :
      Effect w S (.waits act) { S with waits := v }
  | release {tokens} : Effect w S (.release tokens)
      { S with released := S.released + tokens, releasing := ⟨.looking tokens, none⟩ :: S.releasing }
  | proceed {i S'} (h : S.proceed w i = some S') : Effect w S (.proceed i) S'
  | isrTakes (hpos : 0 < S.counter) :
      Effect w S .tryAcquireIsr { S with counter := S.counter - 1, succeeded := S.succeeded + 1 }
  | isrFails : Effect w S .tryAcquireIsr S
  | tryAcquire {t} (hp : S.waits.place t = .outside) : Effect w S (.tryAcquire t)
      { S with
        counter := S.counter - 1
        handed := Function.update S.handed t false
        answer := Function.update S.answer t (some (decide (0 < S.counter)))
        succeeded := S.succeeded + (decide (0 < S.counter)).toNat }
  | wait {t cancel v} (hp : S.waits.place t = .outside) (hcancel : cancel ≠ some w)
      (hv : S.waits.next (.pass t (.start w cancel)) = some v) : Effect w S (.wait t cancel)
      { S with
        waits := v
        marked := Function.update S.marked t false
        tookCounted := Function.update S.tookCounted t false
        handed := Function.update S.handed t false
        answer := Function.update S.answer t none }
  | pollMarked {t raised cancel v} (hp : S.waits.place t = .polling w cancel) (hm : S.marked t = true)
      (hv : S.waits.next (.pass t (.poll true false)) = some v) : Effect w S (.poll t raised) { S with waits := v }
  | pollTakes {t raised cancel v} (hp : S.waits.place t = .polling w cancel) (hpos : 0 < S.counter)
      (hv : S.waits.next (.pass t (.poll true false)) = some v) : Effect w S (.poll t raised)
      { S.gain t with
        counter := S.counter - 1
        tookCounted := Function.update S.tookCounted t true
        waits := v }
  | pollFinds {t raised cancel v} (hp : S.waits.place t = .polling w cancel) (hzero : S.counter = 0)
      (hv : S.waits.next (.pass t (.poll false raised)) = some v) :
      Effect w S (.poll t raised) { S with waits := v }
  | mark {t cancel satisfied chosen} (hp : S.waits.place t = .polled w cancel satisfied chosen)
      (ha : S.after t = .nothing) : Effect w S (.mark t)
      ({ S with marked := Function.update S.marked t (S.marked t || chosen) }.setAfter t .marked)
  | finish {t cancel chosen} (hp : S.waits.place t = .polled w cancel true chosen) (ha : S.after t = .marked) :
      Effect w S (.finish t) (S.setAfter t (.ended true))
  | unarmedMarked {t cancel chosen} (hp : S.waits.place t = .polled w cancel false chosen)
      (ha : S.after t = .marked) (hm : S.marked t = true) :
      Effect w S (.pollUnarmed t) (S.setAfter t (.ended true))
  | unarmedTakes {t cancel chosen} (hp : S.waits.place t = .polled w cancel false chosen)
      (ha : S.after t = .marked) (hm : S.marked t = false) (hpos : 0 < S.counter) : Effect w S (.pollUnarmed t)
      (setAfter { S.gain t with
        counter := S.counter - 1, tookCounted := Function.update S.tookCounted t true } t (.ended true))
  | unarmedFails {t cancel chosen} (hp : S.waits.place t = .polled w cancel false chosen)
      (ha : S.after t = .marked) (hm : S.marked t = false) : Effect w S (.pollUnarmed t) (S.setAfter t .failed)
  | again {t cancel chosen v} (hp : S.waits.place t = .polled w cancel false chosen) (ha : S.after t = .failed)
      (hv : S.waits.next (.pass t (.start w cancel)) = some v) :
      Effect w S (.again t) (setAfter { S with waits := v } t .nothing)
  | giveUp {t cancel chosen} (hp : S.waits.place t = .polled w (some cancel) false chosen)
      (ha : S.after t = .failed) : Effect w S (.giveUp t) (S.setAfter t (.ended false))
  | givesBack {t taken} (ha : S.after t = .ended taken) (hboth : S.tookCounted t = true ∧ S.marked t = true) :
      Effect w S (.settle t)
      { S.setAfter t (.settled taken) with
        hand := Function.update S.hand t (S.hand t - 1)
        releasing := ⟨.looking 1, some t⟩ :: S.releasing }
  | settle {t taken} (ha : S.after t = .ended taken) (hone : ¬ (S.tookCounted t = true ∧ S.marked t = true)) :
      Effect w S (.settle t) (S.setAfter t (.settled taken))
  | reply {t taken v} (ha : S.after t = .settled taken) (hv : S.waits.next (.pass t .finish) = some v) :
      Effect w S (.reply t)
      { ({ S with waits := v } : Handoff T Q).setAfter t .nothing with
        answer := Function.update S.answer t (some taken)
        hand := Function.update S.hand t (S.hand t - taken.toNat)
        succeeded := S.succeeded + taken.toNat }

theorem effect_of_next {w : Q} {S S' : Handoff T Q} {act : HandoffAct T Q} (h : S.next w act = some S') :
    Effect w S act S' := by
  cases act <;> simp only [next, waiting, waitStep, trySatisfy, Option.map_map, Function.comp_def] at h <;>
    grind [Effect, Option.map_eq_some_iff, gain, setAfter]

def boot (idle : ∀ c, T c) (basePriority : ∀ c, T c → Level) (threads : ∀ c, List (T c))
    (initial : ℕ) : Handoff T Q where
  waits := Waits.boot idle basePriority threads
  counter := initial
  releasing := []
  after := fun _ => .nothing
  marked := fun _ => false
  tookCounted := fun _ => false
  answer := fun _ => none
  handed := fun _ => false
  hand := fun _ => 0
  released := 0
  succeeded := 0

/-! ### What is said of a thread -/

/-- What the state says of one thread; `queued` is whether its node is on the queue. -/
structure View (Q : Type) where
  place : WaitPlace Q
  queued : Bool
  after : AfterDisarm
  marked : Bool
  tookCounted : Bool
  answer : Option Bool
  handed : Bool
  hand : ℕ

def view (w : Q) (S : Handoff T Q) (t : Σ c, T c) : View Q where
  place := S.waits.place t
  queued := onQueue w S.waits t
  after := S.after t
  marked := S.marked t
  tookCounted := S.tookCounted t
  answer := S.answer t
  handed := S.handed t
  hand := S.hand t

/-- The tokens of the thread, by what it has done since its disarm. -/
def StageOk (v : View Q) : AfterDisarm → Prop
  | .nothing => v.marked = false ∧ v.tookCounted = v.place.satisfied ∧
      v.hand = v.handed.toNat + v.tookCounted.toNat
  | .marked => v.place.isPolled = true ∧ v.marked = v.handed ∧ v.tookCounted = v.place.satisfied ∧
      v.hand = v.handed.toNat + v.tookCounted.toNat
  | .failed => v.place.isPolled = true ∧ v.marked = false ∧ v.tookCounted = false ∧ v.handed = false ∧
      v.hand = 0 ∧ v.place.satisfied = false
  | .ended taken => v.place.isPolled = true ∧ v.marked = v.handed ∧
      v.hand = v.handed.toNat + v.tookCounted.toNat ∧ taken = (v.handed || v.tookCounted)
  | .settled taken => v.place.isPolled = true ∧ v.hand = taken.toNat ∧ (taken = false → v.handed = false)

/-- **What holds of a thread between steps.** -/
structure Told (w : Q) (v : View Q) : Prop where
  cancel : v.place.cancel ≠ some w
  gone : v.place.source = some w → v.handed = v.place.nodeGone v.queued
  stage : v.place.source = some w → v.answer = none ∧ StageOk v v.after
  outside : v.place.source ≠ some w →
    v.after = .nothing ∧ v.hand = 0 ∧ (v.answer = some false → v.handed = false)

end Handoff

end Cyros.Sync
