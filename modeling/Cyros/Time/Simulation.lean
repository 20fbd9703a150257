import Cyros.Time.Timetable
import Mathlib.Data.List.TakeWhile

/-!
# The simulation driver

Simulated time is one clock for all cores, and one pump fires the timers of all of them: the thread that advances
the time, or the background thread in the real-time mode.  Any number of contexts pump, schedule and cancel at once.

* What is done under a core's lock is one step: a pass of the pump takes one due timer off the table, or moves it on
  when it recurs; a schedule pushes the timer whose id it has claimed; a cancel marks one.
* The pump starts the callback of what it took in a step of its own, without the lock.
* `key` numbers the timers of a core, `flying` holds what is taken and not started, `due` what an advance owes, and
  `history` what was scheduled, cancelled and started.  No step of the driver reads them.

`Sound` names three things that spoil the driver's promises where they happen.
-/

namespace Cyros.Time

open Cyros.Lib

section FirstWith

variable {α : Type}

/-- The first element that satisfies `p`, with what is before it and after it. -/
def firstWith (p : α → Bool) (l : List α) : Option (List α × α × List α) :=
  match l.dropWhile fun x => !p x with
  | [] => none
  | x :: post => some (l.takeWhile fun x => !p x, x, post)

theorem firstWith_some {p : α → Bool} {l pre post : List α} {x : α} (h : firstWith p l = some (pre, x, post)) :
    l = pre ++ x :: post ∧ p x = true := by
  unfold firstWith at h
  split at h
  · cases h
  · next y rest hdrop =>
    cases h
    refine ⟨?_, ?_⟩
    · rw [← hdrop, List.takeWhile_append_dropWhile]
    · have hne : (l.dropWhile fun x => !p x) ≠ [] := by
        rw [hdrop]
        exact List.cons_ne_nil _ _
      have hhead := List.head_dropWhile_not (fun x => !p x) hne
      simp only [hdrop, List.head_cons] at hhead
      simpa using hhead

theorem firstWith_none {p : α → Bool} {l : List α} (h : firstWith p l = none) : ∀ x ∈ l, p x = false := by
  unfold firstWith at h
  split at h
  · next hdrop =>
    intro x hx
    simpa using List.dropWhile_eq_nil_iff.1 hdrop x hx
  · cases h

end FirstWith

namespace Simulation

inductive Mode
  | virtualTime
  | realTime
  deriving DecidableEq, Repr

structure Event (C A : Type) where
  id : ℕ
  when : ℕ
  period : ℕ
  cb : Option C
  arg : A
  cancelled : Bool
  /-- The core, and the number of its ids claimed before this one. -/
  key : ℕ × ℕ
  deriving DecidableEq, Repr

/-- `schedule_at` or `schedule_recurring`. -/
inductive Wish
  | once (tp : ℕ)
  | every (interval : ℕ)
  deriving DecidableEq, Repr

/-- Where a schedule is. -/
inductive CallPlace (C A : Type)
  | idle
  /-- The first id it claimed was zero. -/
  | again (core : ℕ) (wish : Wish) (cb : C) (arg : A)
  | claimed (key : ℕ × ℕ) (id : ℕ) (wish : Wish) (cb : C) (arg : A)

/-- Where a pump is.  An advance goes with the time it set. -/
inductive PumpPlace (C A : Type)
  | out
  /-- `advance_to` has loaded the time. -/
  | loaded (target : ℕ)
  /-- Before `pump_due` reads the time. -/
  | entered (goal : ℕ)
  /-- Before a pass over the timers of a core. -/
  | pass (goal core now : ℕ)
  | took (goal core now : ℕ) (e : Event C A)
  | running (goal core now : ℕ)

inductive Happened (C A : Type)
  | scheduled (e : Event C A)
  | cancelled (key : ℕ × ℕ)
  | started (e : Event C A) (time : ℕ)

/-- The driver, with pumps `π` and schedules `τ`. -/
structure Driver (π τ C A : Type) where
  now : ℕ
  nextId : ℕ → ℕ
  events : ℕ → List (Event C A)
  pump : π → PumpPlace C A
  call : τ → CallPlace C A
  /-- How many ids of a core are claimed. -/
  issued : ℕ → ℕ
  flying : List (π × Event C A)
  due : π → List (ℕ × ℕ)
  history : List (Happened C A)

inductive Act (π τ C A : Type)
  | tick (ticks : ℕ)
  | schedule (t : τ) (core : ℕ) (wish : Wish) (cb : Option C) (arg : A)
  | claimAgain (t : τ)
  | push (t : τ)
  | cancel (core id : ℕ)
  | advanceTo (p : π) (tp : ℕ)
  | store (p : π)
  | background (p : π)
  | readTime (p : π)
  | look (p : π)
  | start (p : π)
  | ret (p : π)
  | leave (p : π)

variable {π τ C A : Type}

/-- What `fire_due_callbacks` looks for. -/
def isDue (now : ℕ) (e : Event C A) : Bool := e.id ≠ 0 ∧ e.cancelled = false ∧ e.when ≤ now

/-- The loop that moves a recurring timer on.  `none` when it never ends: after as many turns as there are
deadlines it has come back to one it has been at. -/
def moveOn (now period : ℕ) : ℕ → ℕ → Option ℕ
  | 0, _ => none
  | fuel + 1, when =>
      if (when + period) % tickSize ≤ now then moveOn now period fuel ((when + period) % tickSize)
      else some ((when + period) % tickSize)

/-- What is left in the place of a timer that is taken. -/
def leftOver (now : ℕ) (e : Event C A) : Option (List (Event C A)) :=
  if e.period = 0 then some []
  else (moveOn now e.period tickSize e.when).map fun when => [{ e with when := when }]

/-- The one-shots of a table that are due at a time. -/
def dueOnce (now : ℕ) (es : List (Event C A)) : List (ℕ × ℕ) :=
  (es.filter fun e => isDue now e ∧ e.period = 0).map Event.key

namespace Driver

def boot (now : ℕ) : Driver π τ C A where
  now := now
  nextId := fun _ => 1
  events := fun _ => []
  pump := fun _ => .out
  call := fun _ => .idle
  issued := fun _ => 0
  flying := []
  due := fun _ => []
  history := []

/-- All one-shots that are due at a time: those in the tables, and those taken and not started. -/
def owed (cores now : ℕ) (S : Driver π τ C A) : List (ℕ × ℕ) :=
  ((List.range cores).flatMap fun c => dueOnce now (S.events c)) ++ dueOnce now (S.flying.map Prod.snd)

/-- What a schedule pushes. -/
def pushed (S : Driver π τ C A) (key : ℕ × ℕ) (id : ℕ) (wish : Wish) (cb : C) (arg : A) : Event C A :=
  match wish with
  | .once tp => ⟨id, tp, 0, some cb, arg, false, key⟩
  | .every interval => ⟨id, (S.now + interval) % tickSize, interval, some cb, arg, false, key⟩

/-- A key is dealt with: no advance waits for it any more. -/
def settle (S : Driver π τ C A) (key : ℕ × ℕ) : Driver π τ C A :=
  { S with due := fun p => (S.due p).filter (· ≠ key) }

variable [DecidableEq π] [DecidableEq τ]

/-- `next_id.fetch_add(1)`, and what becomes of the id. -/
def claim (S : Driver π τ C A) (t : τ) (core : ℕ) (place : ℕ → ℕ × ℕ → CallPlace C A) : Driver π τ C A :=
  { S with
    nextId := Function.update S.nextId core ((S.nextId core + 1) % idSize)
    issued := Function.update S.issued core (S.issued core + 1)
    call := Function.update S.call t (place (S.nextId core) (core, S.issued core)) }

def setPump (S : Driver π τ C A) (p : π) (place : PumpPlace C A) : Driver π τ C A :=
  { S with pump := Function.update S.pump p place }

section Fields

variable (S : Driver π τ C A) (t t' : τ) (core c : ℕ) (place : ℕ → ℕ × ℕ → CallPlace C A)

omit [DecidableEq π] in
@[grind =] theorem claim_call :
    (S.claim t core place).call t' = if t' = t then place (S.nextId core) (core, S.issued core) else S.call t' :=
  Function.update_apply ..

omit [DecidableEq π] in
@[grind =] theorem claim_nextId :
    (S.claim t core place).nextId c = if c = core then (S.nextId core + 1) % idSize else S.nextId c :=
  Function.update_apply ..

omit [DecidableEq π] in
@[grind =] theorem claim_issued :
    (S.claim t core place).issued c = if c = core then S.issued core + 1 else S.issued c :=
  Function.update_apply ..

omit [DecidableEq π] in
@[grind =] theorem claim_history : (S.claim t core place).history = S.history := rfl

omit [DecidableEq τ] in
@[grind =] theorem setPump_pump (p q : π) (place : PumpPlace C A) :
    (S.setPump p place).pump q = if q = p then place else S.pump q :=
  Function.update_apply ..

end Fields

/-- A pass of the pump over the table of a core, under its lock. -/
def look (cores : ℕ) (S : Driver π τ C A) (p : π) (goal core now : ℕ) : Option (Driver π τ C A) :=
  if core < cores then
    let es := (S.events core).filter fun e => !e.cancelled
    match firstWith (isDue now) es with
    | none => some { S.setPump p (.pass goal (core + 1) now) with events := Function.update S.events core es }
    | some (pre, e, post) => (leftOver now e).map fun left =>
        { S.setPump p (.took goal core now e) with
          events := Function.update S.events core (pre ++ (left ++ post))
          flying := (p, e) :: S.flying }
  else none

/-- **One step of the driver.** -/
def next (mode : Mode) (cores : ℕ) (S : Driver π τ C A) : Act π τ C A → Option (Driver π τ C A)
  | .tick ticks => match mode with
    | .realTime => some { S with now := S.now + ticks }
    | .virtualTime => none
  | .schedule t core wish cb arg => match S.call t, cb with
    | .idle, some cb =>
        if wish = .every 0 then some S
        else if core < cores then some (S.claim t core fun id key =>
          if id = 0 then .again core wish cb arg else .claimed key id wish cb arg)
        else none
    | .idle, none => some S
    | _, _ => none
  | .claimAgain t => match S.call t with
    | .again core wish cb arg => some (S.claim t core fun id key => .claimed key id wish cb arg)
    | _ => none
  | .push t => match S.call t with
    | .claimed key id wish cb arg => some { S with
        events := Function.update S.events key.1 (S.events key.1 ++ [S.pushed key id wish cb arg])
        call := Function.update S.call t .idle
        history := S.history ++ [.scheduled (S.pushed key id wish cb arg)] }
    | _ => none
  | .cancel core id =>
      if core < cores then
        if id = 0 then some S
        else match firstWith (fun e => e.id = id ∧ e.cancelled = false) (S.events core) with
          | none => some S
          | some (pre, e, post) => some { S.settle e.key with
              events := Function.update S.events core (pre ++ { e with cancelled := true } :: post)
              history := S.history ++ [.cancelled e.key] }
      else none
  | .advanceTo p tp => match mode, S.pump p with
    | .virtualTime, .out => some (S.setPump p (.loaded (max tp S.now)))
    | _, _ => none
  | .store p => match S.pump p with
    | .loaded target => some { S.setPump p (.entered target) with
        now := target
        due := Function.update S.due p (S.owed cores target) }
    | _ => none
  | .background p => match mode, S.pump p with
    | .realTime, .out => some (S.setPump p (.entered 0))
    | _, _ => none
  | .readTime p => match S.pump p with
    | .entered goal => some (S.setPump p (.pass goal 0 S.now))
    | _ => none
  | .look p => match S.pump p with
    | .pass goal core now => S.look cores p goal core now
    | _ => none
  | .start p => match S.pump p with
    | .took goal core now e =>
        let S := { S.setPump p (.running goal core now) with
          flying := S.flying.filter (·.1 ≠ p) }
        match e.cb with
        | some _ => some { S.settle e.key with history := S.history ++ [.started e S.now] }
        | none => some S
    | _ => none
  | .ret p => match S.pump p with
    | .running goal core now => some (S.setPump p (.pass goal core now))
    | _ => none
  | .leave p => match S.pump p with
    | .pass _ core _ => if core = cores then some (S.setPump p .out) else none
    | _ => none

/-- **What a step can do.**  A schedule without a callback and a cancel that finds nothing leave all as it is. -/
inductive Effect (mode : Mode) (cores : ℕ) (S : Driver π τ C A) : Act π τ C A → Driver π τ C A → Prop
  | idle {act} : Effect mode cores S act S
  | tick {ticks} : Effect mode cores S (.tick ticks) { S with now := S.now + ticks }
  | claim {act t core} {place : ℕ → ℕ × ℕ → CallPlace C A}
      (hplace : ∀ id key, (∃ wish cb arg, place id key = .again core wish cb arg) ∨
        ∃ wish cb arg, place id key = .claimed key id wish cb arg) :
      Effect mode cores S act (S.claim t core place)
  | push {t key id wish cb arg} (hcall : S.call t = .claimed key id wish cb arg) :
      Effect mode cores S (.push t) { S with
        events := Function.update S.events key.1 (S.events key.1 ++ [S.pushed key id wish cb arg])
        call := Function.update S.call t .idle
        history := S.history ++ [.scheduled (S.pushed key id wish cb arg)] }
  | cancel {core id pre e post}
      (hfirst : firstWith (fun e => e.id = id ∧ e.cancelled = false) (S.events core) = some (pre, e, post)) :
      Effect mode cores S (.cancel core id) { S.settle e.key with
        events := Function.update S.events core (pre ++ { e with cancelled := true } :: post)
        history := S.history ++ [.cancelled e.key] }
  | advanceTo {p tp} (hp : S.pump p = .out) :
      Effect mode cores S (.advanceTo p tp) (S.setPump p (.loaded (max tp S.now)))
  | store {p target} (hp : S.pump p = .loaded target) :
      Effect mode cores S (.store p) { S.setPump p (.entered target) with
        now := target
        due := Function.update S.due p (S.owed cores target) }
  | background {p} (hp : S.pump p = .out) : Effect mode cores S (.background p) (S.setPump p (.entered 0))
  | readTime {p goal} (hp : S.pump p = .entered goal) :
      Effect mode cores S (.readTime p) (S.setPump p (.pass goal 0 S.now))
  | look {p goal core now S'} (hp : S.pump p = .pass goal core now) (hlook : S.look cores p goal core now = some S') :
      Effect mode cores S (.look p) S'
  | start {p goal core now e} (hp : S.pump p = .took goal core now e) (hcb : e.cb ≠ none) :
      Effect mode cores S (.start p)
        { settle { S.setPump p (.running goal core now) with flying := S.flying.filter (·.1 ≠ p) } e.key with
          history := S.history ++ [.started e S.now] }
  | startNone {p goal core now e} (hp : S.pump p = .took goal core now e) (hcb : e.cb = none) :
      Effect mode cores S (.start p)
        { S.setPump p (.running goal core now) with flying := S.flying.filter (·.1 ≠ p) }
  | ret {p goal core now} (hp : S.pump p = .running goal core now) :
      Effect mode cores S (.ret p) (S.setPump p (.pass goal core now))
  | leave {p goal now} (hp : S.pump p = .pass goal cores now) : Effect mode cores S (.leave p) (S.setPump p .out)

theorem effect_of_next {mode : Mode} {cores : ℕ} {S S' : Driver π τ C A} {act : Act π τ C A}
    (h : S.next mode cores act = some S') : S.Effect mode cores act S' := by
  unfold next at h
  cases act with
  | schedule t core wish cb arg =>
    dsimp only at h
    split at h
    · split_ifs at h
      · exact Option.some.inj h ▸ .idle
      · refine Option.some.inj h ▸ .claim fun id key => ?_
        by_cases hid : id = 0
        · exact Or.inl ⟨_, _, _, if_pos hid⟩
        · exact Or.inr ⟨_, _, _, if_neg hid⟩
    · exact Option.some.inj h ▸ .idle
    · cases h
  | claimAgain t =>
    dsimp only at h
    split at h
    · exact Option.some.inj h ▸ .claim fun id key => Or.inr ⟨_, _, _, rfl⟩
    · cases h
  | push t =>
    dsimp only at h
    split at h
    · next hcall => exact Option.some.inj h ▸ .push hcall
    · cases h
  | start p =>
    dsimp only at h
    split at h
    · next hp =>
      split at h
      · next hcb => exact Option.some.inj h ▸ .start hp (by rw [hcb]; simp)
      · next hcb => exact Option.some.inj h ▸ .startNone hp hcb
    · cases h
  | _ => grind [Effect]

/-- **What does not happen**: a recurring timer is cancelled between a pump's taking it and the start of its callback;
an advance sets the time back, another having set it on since the load; an advance returns while another pump has
taken a one-shot that was due for it and not started it. -/
def Sound (S : Driver π τ C A) : Act π τ C A → Prop
  | .cancel core id =>
      match firstWith (fun e => e.id = id ∧ e.cancelled = false) (S.events core) with
      | some (_, e, _) => e.period ≠ 0 → ∀ x ∈ S.flying, x.2.key ≠ e.key
      | none => True
  | .store p => match S.pump p with
    | .loaded target => S.now ≤ target
    | _ => True
  | .leave p => match S.pump p with
    | .pass goal _ _ => ∀ x ∈ S.flying, x.2.period = 0 → goal < x.2.when
    | _ => True
  | _ => True

instance (S : Driver π τ C A) (act : Act π τ C A) : Decidable (S.Sound act) :=
  match act with
  | .cancel core id => match h : firstWith (fun e => e.id = id ∧ e.cancelled = false) (S.events core) with
    | some (_, e, _) =>
        decidable_of_iff (e.period ≠ 0 → ∀ x ∈ S.flying, x.2.key ≠ e.key) (by rw [Sound, h])
    | none => isTrue (by rw [Sound, h]; trivial)
  | .store p => match h : S.pump p with
    | .loaded target => decidable_of_iff (S.now ≤ target) (by rw [Sound, h])
    | .out | .entered .. | .pass .. | .took .. | .running .. => isTrue (by rw [Sound, h]; trivial)
  | .leave p => match h : S.pump p with
    | .pass goal _ _ =>
        decidable_of_iff (∀ x ∈ S.flying, x.2.period = 0 → goal < x.2.when) (by rw [Sound, h])
    | .out | .loaded .. | .entered .. | .took .. | .running .. => isTrue (by rw [Sound, h]; trivial)
  | .tick _ | .schedule .. | .claimAgain _ | .push _ | .advanceTo .. | .background _ | .readTime _ | .look _
  | .start _ | .ret _ => isTrue trivial

end Driver

end Simulation

end Cyros.Time
