import Mathlib.Tactic.FinCases
import Cyros.Lib.Run
import Cyros.Kernel.Switching

/-!
# Runs of one core

The threads of a core, its interrupts, nested to any depth, and the reschedule handler, taking the
scheduler's functions step by step.  A critical section is one step, since nothing on this core comes
between; what the source does outside one is cut into its single accesses:

* `global_ready_thread` tests, clears the disposition, looks at the state, and only then masks and
  readies (`WakePlace`);
* `reschedule` takes in the intake thread by thread, reads `current_thread`, and only then enters its
  guard (`HandlerPlace`).

Other cores post to the intake and file handed-over mutexes at any moment.  The port is represented by
what it guarantees: it calls the handler with no interrupt active, and it says where a wake stands
(`Road`).  Inside the handler an interrupt's wake does not decide.

`ready_structure_kept` is the invariant of the ready structure along every run in which no wake readies
the running thread; `nested_wake_admits_running` is a run in which one does.
-/

namespace Cyros.Kernel

open Cyros.Lib Cyros.Lib.IntrusiveQueue

/-- Where a call of `global_ready_thread` stands. -/
inductive WakePlace (Tid : Type) where
  | idle
  | clear (t : Tid) (policy : Policy)
  | look (t : Tid) (policy : Policy)
  | ready (t : Tid) (policy : Policy)
  deriving DecidableEq, Repr

/-- Where the port's handler stands in `reschedule`. -/
inductive HandlerPlace (Tid : Type) where
  | idle
  | entered
  | draining (chain : List Tid)
  | servicing (t : Tid) (chain : List Tid)
  | guard (prev : Tid)
  | switching
  deriving DecidableEq, Repr

/-- What the port says of the place of a wake: at baseline in the running thread, in an interrupt whose
return reaches a thread at baseline, or anywhere else. -/
inductive Road where
  | baseline
  | interrupt
  | deferred
  deriving DecidableEq, Repr

structure Core (Tid : Type) where
  sched : Sched Tid
  /-- The wakes of the active interrupts, innermost first. -/
  irqs : List (WakePlace Tid)
  /-- The wake a thread is in, while it runs or until it runs again. -/
  place : Tid → WakePlace Tid
  /-- The thread is in `thread_exit`, past the store of its disposition. -/
  exiting : Tid → Bool
  handler : HandlerPlace Tid
  /-- Posts of other cores between the claim of the request bit and the push. -/
  posting : List Tid

inductive CoreAct (Tid : Type) where
  | irqEnter
  | irqReturn
  /-- The executing thread or interrupt begins a wake: the test for a thread that is done. -/
  | wake (t : Tid) (policy : Policy)
  | wakeClear
  | wakeLook
  | wakeReady (fold : Tid → ℕ) (road : Road)
  /-- The running thread begins a pass of a wait, or ends it without parking. -/
  | prepare
  | unprepare
  | commitToBlock (fold : Tid → ℕ)
  | yield (fold : Tid → ℕ)
  | threadExit
  /-- The running thread acquires or releases mutexes. -/
  | hold (mask : BitVec 8)
  | handlerEnter
  | handlerTake
  | handlerBits
  | handlerReady (fold : Tid → ℕ)
  | handlerPrev
  | handlerGuard (fold : Tid → ℕ) (joiners : List Tid)
  | handlerSwitch
  | remoteClaim (t : Tid)
  | remotePush (t : Tid)
  /-- Another core hands a mutex over to the thread. -/
  | remoteFile (t : Tid) (mask : BitVec 8)

namespace Core

variable {Tid : Type} [DecidableEq Tid]

/-- The wake of the executing interrupt or thread; `none` while the handler executes. -/
def executing (k : Core Tid) : Option (WakePlace Tid) :=
  match k.irqs with
  | w :: _ => some w
  | [] => if k.handler = .idle then
      match k.sched.currentThread with
      | some c => if k.exiting c then none else some (k.place c)
      | none => none
    else none

/-- The executing interrupt or thread moves in its wake. -/
def moveTo (k : Core Tid) (w : WakePlace Tid) : Core Tid :=
  match k.irqs with
  | _ :: ws => { k with irqs := w :: ws }
  | [] => match k.sched.currentThread with
    | some c => { k with place := Function.update k.place c w }
    | none => k

/-- The thread that executes its own code, outside a wake, with no interrupt and no handler active. -/
def runningThread (k : Core Tid) : Option Tid :=
  if k.irqs = [] ∧ k.handler = .idle then
    k.sched.currentThread.filter fun c => !k.exiting c && k.place c == .idle
  else none

/-- `set_thread_ready` with the port's answer: the wake, and the decision it warrants. -/
def setThreadReady [Fintype Tid] (s : Sched Tid) (fold : Tid → ℕ) (t : Tid) (policy : Policy)
    (road : Road) : Sched Tid :=
  match s.makeReady fold t with
  | (s', hint) =>
    if hint = .warranted ∧ policy ≠ .never ∧ road ≠ .deferred then s'.decide fold .preempted else s'

/-- The roads open to the executing context.  An interrupt inside the handler does not decide. -/
def roadOpen (k : Core Tid) : Road → Bool
  | .baseline => k.irqs.isEmpty
  | .interrupt => !k.irqs.isEmpty && k.handler == .idle
  | .deferred => true

/-- Steps of a wake by the executing thread or interrupt. -/
def wakeStep [Fintype Tid] (k : Core Tid) : CoreAct Tid → Option (Core Tid)
  | .wake t policy => match k.executing with
    | some .idle =>
        some (if k.sched.state t = .terminated ∨ k.sched.disposition t = .terminating then k
          else k.moveTo (.clear t policy))
    | _ => none
  | .wakeClear => match k.executing with
    | some (.clear t policy) =>
        some ({ k with sched := k.sched.setDisposition t .none }.moveTo (.look t policy))
    | _ => none
  | .wakeLook => match k.executing with
    | some (.look t policy) =>
        some (k.moveTo (if k.sched.state t = .running then .idle else .ready t policy))
    | _ => none
  | .wakeReady fold road => match k.executing with
    | some (.ready t policy) =>
        -- the waker is past the call; a thread that switched away returns from it later
        if k.roadOpen road then
          some { k.moveTo .idle with sched := setThreadReady k.sched fold t policy road }
        else none
    | _ => none
  | _ => none

/-- Steps of the running thread at baseline.  The idle thread only ever yields. -/
def threadStep [Fintype Tid] (k : Core Tid) : CoreAct Tid → Option (Core Tid)
  | .yield fold => match k.runningThread with
    | some _ => some { k with sched := k.sched.decide fold .yielded }
    | none => none
  | act => match k.runningThread with
    | none => none
    | some c =>
      if c = k.sched.idleThread then none
      else match act with
        | .prepare => some { k with sched := k.sched.setDisposition c .prepared }
        | .unprepare => some { k with sched := k.sched.setDisposition c .none }
        | .commitToBlock fold =>
            some (if k.sched.disposition c = .prepared then
              { k with sched := k.sched.decide fold .parked } else k)
        | .threadExit => some { k with
            sched := k.sched.setDisposition c .terminating
            exiting := Function.update k.exiting c true }
        | .hold mask => some { k with
            sched := { k.sched with heldMask := Function.update k.sched.heldMask c mask } }
        | _ => none

/-- Steps of the handler, made with no interrupt active. -/
def handlerStep [Fintype Tid] (k : Core Tid) (act : CoreAct Tid) : Option (Core Tid) :=
  if k.irqs = [] then
    match act, k.handler with
    | .handlerEnter, .idle => some { k with handler := .entered }
    | .handlerTake, .entered => some { k with
        handler := .draining k.sched.intake.reverse
        sched := { k.sched with intake := [] } }
    | .handlerBits, .draining (t :: chain) =>
        some (if k.sched.pending t then
          { k with
            handler := .servicing t chain
            sched := (k.sched.takeRequests t).revokePrepared t }
        else { k with handler := .draining chain, sched := k.sched.takeRequests t })
    | .handlerReady fold, .servicing t chain => some { k with
        handler := .draining chain
        sched := (k.sched.makeReady fold t).1 }
    | .handlerPrev, .draining [] => match k.sched.currentThread with
        | some c => some { k with handler := .guard c }
        | none => none
    | .handlerGuard fold joiners, .guard prev =>
        (k.sched.rescheduleGuarded fold joiners prev).map fun s =>
          { k with handler := .switching, sched := s }
    | .handlerSwitch, .switching => some { k with handler := .idle }
    | _, _ => none
  else none

/-- Steps of other cores. -/
def remoteStep (k : Core Tid) : CoreAct Tid → Option (Core Tid)
  | .remoteClaim t =>
      some (if k.sched.pending t then k
        else { k with
          sched := { k.sched with pending := Function.update k.sched.pending t true }
          posting := t :: k.posting })
  | .remotePush t =>
      if t ∈ k.posting then some { k with
        posting := k.posting.erase t
        sched := { k.sched with intake := t :: k.sched.intake } }
      else none
  | .remoteFile t mask => some { k with
      sched := { k.sched with heldMask := Function.update k.sched.heldMask t (k.sched.heldMask t ||| mask) } }
  | _ => none

/-- One step of the core. -/
def next [Fintype Tid] (k : Core Tid) (act : CoreAct Tid) : Option (Core Tid) :=
  match act with
  | .irqEnter => some { k with irqs := .idle :: k.irqs }
  | .irqReturn => match k.irqs with
    | .idle :: ws => some { k with irqs := ws }
    | _ => none
  | .wake .. | .wakeClear | .wakeLook | .wakeReady .. => k.wakeStep act
  | .prepare | .unprepare | .commitToBlock _ | .yield _ | .threadExit | .hold _ => k.threadStep act
  | .handlerEnter | .handlerTake | .handlerBits | .handlerReady _ | .handlerPrev
  | .handlerGuard .. | .handlerSwitch => k.handlerStep act
  | .remoteClaim _ | .remotePush _ | .remoteFile .. => k.remoteStep act

/-- The core as `start` leaves it. -/
def boot [Fintype Tid] (idle : Tid) (basePriority : Tid → Level) (threads : List Tid) : Core Tid where
  sched := Sched.boot idle basePriority threads
  irqs := []
  place := fun _ => .idle
  exiting := fun _ => false
  handler := .idle
  posting := []

@[simp] theorem moveTo_sched (k : Core Tid) (w : WakePlace Tid) : (k.moveTo w).sched = k.sched := by
  unfold moveTo
  split
  · rfl
  · split <;> rfl

@[simp] theorem moveTo_handler (k : Core Tid) (w : WakePlace Tid) :
    (k.moveTo w).handler = k.handler := by
  unfold moveTo
  split
  · rfl
  · split <;> rfl

/-- A wake takes a road other than the deferred one only outside the handler. -/
theorem handler_of_roadOpen {k : Core Tid} {w : WakePlace Tid} {road : Road}
    (hw : k.executing = some w) (hopen : k.roadOpen road = true) (hroad : road ≠ .deferred) :
    k.handler = .idle := by
  cases road with
  | baseline =>
      simp only [roadOpen, List.isEmpty_iff] at hopen
      by_contra hh
      simp [executing, hopen, hh] at hw
  | interrupt =>
      simp only [roadOpen, Bool.and_eq_true, beq_iff_eq] at hopen
      exact hopen.2
  | deferred => exact absurd rfl hroad

/-- The running thread of a thread step is current, and neither handler nor interrupt is active. -/
theorem runningThread_eq_some {k : Core Tid} {c : Tid} (h : k.runningThread = some c) :
    k.irqs = [] ∧ k.handler = .idle ∧ k.sched.currentThread = some c ∧ k.exiting c = false ∧
      k.place c = .idle := by
  unfold runningThread at h
  split at h
  · next hk =>
    rw [Option.filter_eq_some_iff] at h
    simp only [Bool.and_eq_true, Bool.not_eq_true', beq_iff_eq] at h
    exact ⟨hk.1, hk.2, h.1, h.2.1, h.2.2⟩
  · cases h

/-! ### What a step does -/

section Effect

variable [Fintype Tid]

/-- **All that a step of the core can do**, with what it has found. -/
inductive Effect (k : Core Tid) : CoreAct Tid → Core Tid → Prop
  | irqEnter : Effect k .irqEnter { k with irqs := .idle :: k.irqs }
  | irqReturn {ws : List (WakePlace Tid)} (hirqs : k.irqs = .idle :: ws) : Effect k .irqReturn { k with irqs := ws }
  | refused {t : Tid} {policy : Policy} (hexec : k.executing = some .idle)
      (hdone : k.sched.state t = .terminated ∨ k.sched.disposition t = .terminating) : Effect k (.wake t policy) k
  | wake {t : Tid} {policy : Policy} (hexec : k.executing = some .idle)
      (hlive : ¬(k.sched.state t = .terminated ∨ k.sched.disposition t = .terminating)) :
      Effect k (.wake t policy) (k.moveTo (.clear t policy))
  | clear {t : Tid} {policy : Policy} (hexec : k.executing = some (.clear t policy)) :
      Effect k .wakeClear ({ k with sched := k.sched.setDisposition t .none }.moveTo (.look t policy))
  | look {t : Tid} {policy : Policy} (hexec : k.executing = some (.look t policy)) :
      Effect k .wakeLook (k.moveTo (if k.sched.state t = .running then .idle else .ready t policy))
  | ready {fold : Tid → ℕ} {road : Road} {t : Tid} {policy : Policy} (hexec : k.executing = some (.ready t policy))
      (hopen : k.roadOpen road = true) :
      Effect k (.wakeReady fold road) { k.moveTo .idle with sched := setThreadReady k.sched fold t policy road }
  | prepare {c : Tid} (hrun : k.runningThread = some c) (hidle : c ≠ k.sched.idleThread) :
      Effect k .prepare { k with sched := k.sched.setDisposition c .prepared }
  | unprepare {c : Tid} (hrun : k.runningThread = some c) (hidle : c ≠ k.sched.idleThread) :
      Effect k .unprepare { k with sched := k.sched.setDisposition c .none }
  | unparked {fold : Tid → ℕ} {c : Tid} (hrun : k.runningThread = some c) (hidle : c ≠ k.sched.idleThread)
      (hprep : k.sched.disposition c ≠ .prepared) : Effect k (.commitToBlock fold) k
  | park {fold : Tid → ℕ} {c : Tid} (hrun : k.runningThread = some c) (hidle : c ≠ k.sched.idleThread)
      (hprep : k.sched.disposition c = .prepared) :
      Effect k (.commitToBlock fold) { k with sched := k.sched.decide fold .parked }
  | yield {fold : Tid → ℕ} {c : Tid} (hrun : k.runningThread = some c) :
      Effect k (.yield fold) { k with sched := k.sched.decide fold .yielded }
  | exit {c : Tid} (hrun : k.runningThread = some c) (hidle : c ≠ k.sched.idleThread) :
      Effect k .threadExit { k with
        sched := k.sched.setDisposition c .terminating
        exiting := Function.update k.exiting c true }
  | hold {c : Tid} {mask : BitVec 8} (hrun : k.runningThread = some c) (hidle : c ≠ k.sched.idleThread) :
      Effect k (.hold mask) { k with sched := { k.sched with heldMask := Function.update k.sched.heldMask c mask } }
  | enter (hirqs : k.irqs = []) (hh : k.handler = .idle) : Effect k .handlerEnter { k with handler := .entered }
  | take (hirqs : k.irqs = []) (hh : k.handler = .entered) :
      Effect k .handlerTake { k with
        handler := .draining k.sched.intake.reverse
        sched := { k.sched with intake := [] } }
  | service {t : Tid} {chain : List Tid} (hirqs : k.irqs = []) (hh : k.handler = .draining (t :: chain))
      (hpending : k.sched.pending t = true) :
      Effect k .handlerBits { k with
        handler := .servicing t chain
        sched := (k.sched.takeRequests t).revokePrepared t }
  | skip {t : Tid} {chain : List Tid} (hirqs : k.irqs = []) (hh : k.handler = .draining (t :: chain))
      (hpending : k.sched.pending t = false) :
      Effect k .handlerBits { k with handler := .draining chain, sched := k.sched.takeRequests t }
  | serviced {fold : Tid → ℕ} {t : Tid} {chain : List Tid} (hirqs : k.irqs = [])
      (hh : k.handler = .servicing t chain) :
      Effect k (.handlerReady fold) { k with handler := .draining chain, sched := (k.sched.makeReady fold t).1 }
  | prev {c : Tid} (hirqs : k.irqs = []) (hh : k.handler = .draining []) (hcur : k.sched.currentThread = some c) :
      Effect k .handlerPrev { k with handler := .guard c }
  | guard {fold : Tid → ℕ} {joiners : List Tid} {prev : Tid} {s : Sched Tid} (hirqs : k.irqs = [])
      (hh : k.handler = .guard prev) (hs : k.sched.rescheduleGuarded fold joiners prev = some s) :
      Effect k (.handlerGuard fold joiners) { k with handler := .switching, sched := s }
  | switch (hirqs : k.irqs = []) (hh : k.handler = .switching) : Effect k .handlerSwitch { k with handler := .idle }
  | claimed {t : Tid} (hpending : k.sched.pending t = true) : Effect k (.remoteClaim t) k
  | claim {t : Tid} (hpending : k.sched.pending t = false) :
      Effect k (.remoteClaim t) { k with
        sched := { k.sched with pending := Function.update k.sched.pending t true }
        posting := t :: k.posting }
  | push {t : Tid} (ht : t ∈ k.posting) :
      Effect k (.remotePush t) { k with
        posting := k.posting.erase t
        sched := { k.sched with intake := t :: k.sched.intake } }
  | file {t : Tid} {mask : BitVec 8} :
      Effect k (.remoteFile t mask) { k with
        sched := { k.sched with heldMask := Function.update k.sched.heldMask t (k.sched.heldMask t ||| mask) } }

theorem effect_of_next {k k' : Core Tid} {act : CoreAct Tid} (h : k.next act = some k') : Effect k act k' := by
  cases act with
  | handlerGuard fold joiners =>
      simp only [Core.next, Core.handlerStep] at h
      split at h
      · next hirqs =>
        cases hh : k.handler <;> simp only [hh, reduceCtorEq] at h
        obtain ⟨s, hs, rfl⟩ := Option.map_eq_some_iff.1 h
        exact .guard hirqs hh hs
      · cases h
  | _ =>
      unfold Core.next Core.wakeStep Core.threadStep Core.handlerStep Core.remoteStep at h
      grind [Effect]

end Effect

/-! ### The invariant -/

/-- What holds of the scheduler while the handler stands at `h`: `c` is current, and it is what the
handler has read.  The strong form adds that `c` is running outside the handler and once the pick is
made; in the middle of a switch it may have been made ready by a wake taken in from another core. -/
structure Phase (strong : Prop) (h : HandlerPlace Tid) (s : Sched Tid) (c : Tid) : Prop
    extends s.Consistent c where
  guarded : ∀ prev, h = .guard prev → prev = c
  settled : strong → h = .idle ∨ h = .switching → s.state c = .running

structure Inv (strong : Prop) (k : Core Tid) : Prop where
  phase : ∃ c, Phase strong k.handler k.sched c
  idle : k.sched.disposition k.sched.idleThread ≠ .terminating

/-- The condition on a wake: it is not made on the running thread, unless that thread refuses it. -/
def ReadiesNoRunning (k : Core Tid) : CoreAct Tid → Prop
  | .wakeReady _ _ => ∀ t policy, k.executing = some (.ready t policy) →
      k.sched.state t = .running → k.sched.disposition t = .terminating
  | _ => True

section Phase

variable {strong : Prop}

omit [DecidableEq Tid] in
theorem Inv.tidy {k : Core Tid} (hi : Inv strong k) : k.sched.Tidy := by
  obtain ⟨c, hc⟩ := hi.phase
  exact hc.tidy

omit [DecidableEq Tid] in
theorem Inv.settled {k : Core Tid} (hi : Inv True k) (hh : k.handler = .idle) :
    ∃ c, k.sched.Settled c := by
  obtain ⟨c, hc⟩ := hi.phase
  exact ⟨c, hc.toConsistent, hc.settled trivial (Or.inl hh)⟩

omit [DecidableEq Tid] in
theorem settled_phase {h : HandlerPlace Tid} {s : Sched Tid} {c : Tid} (hs : s.Settled c)
    (hh : ∀ prev, h ≠ .guard prev) : Phase strong h s c :=
  ⟨hs.toConsistent, fun prev hp => absurd hp (hh prev), fun _ _ => hs.running⟩

omit [DecidableEq Tid] in
/-- A wake keeps the phase, provided the running thread is not made ready where it has to run. -/
theorem Phase.woken {h : HandlerPlace Tid} {s s' : Sched Tid} {c : Tid} (hp : Phase strong h s c)
    (htidy : s'.Tidy) (hw : s.Woken s')
    (hrun : strong → h = .idle ∨ h = .switching → s.state c = .running → s'.state c = .running) :
    Phase strong h s' c :=
  ⟨hp.toConsistent.woken htidy hw, hp.guarded,
    fun hstrong hh => hrun hstrong hh (hp.settled hstrong hh)⟩

omit [DecidableEq Tid] in
/-- Nothing of a phase is read but the ready structure, the states and the current thread. -/
theorem Phase.transfer {h : HandlerPlace Tid} {s s' : Sched Tid} {c : Tid} (hp : Phase strong h s c)
    (htidy : s'.Tidy) (hcur : s'.currentThread = s.currentThread) (hstate : s'.state = s.state) :
    Phase strong h s' c := by
  refine ⟨⟨htidy, hcur.trans hp.currentThread, ?_, ?_⟩, hp.guarded, ?_⟩
  · rw [hstate]
    exact hp.only
  · rw [hstate]
    exact hp.live
  · rw [hstate]
    exact hp.settled

omit [DecidableEq Tid] in
theorem kept_idle {s s' : Sched Tid} (h : s.Kept s')
    (hi : s.disposition s.idleThread ≠ .terminating) :
    s'.disposition s'.idleThread ≠ .terminating := by
  rw [h.idleThread]
  exact fun hd => hi ((h.terminating _).1 hd)

variable [Fintype Tid]

/-- `make_ready`: in the strong form, of a thread that does not run or that is refused. -/
theorem Phase.makeReady {h : HandlerPlace Tid} {s : Sched Tid} {c : Tid} (hp : Phase strong h s c)
    (fold : Tid → ℕ) {t : Tid}
    (ht : strong → h = .idle ∨ h = .switching → s.state t = .running →
      s.disposition t = .terminating) :
    Phase strong h (s.makeReady fold t).1 c := by
  obtain ⟨htidy, hw⟩ := hp.tidy.makeReady fold t
  refine hp.woken htidy hw fun hstrong hh hrun => ?_
  by_cases hct : c = t
  · subst hct
    rcases hw.state c with hs | ⟨-, -, hd⟩
    · rwa [hs]
    · exact absurd (ht hstrong hh hrun) hd
  · rwa [Sched.makeReady_state_ne hp.tidy fold hct]

/-- `set_thread_ready`, on a road it may decide on only outside the handler. -/
theorem Phase.setThreadReady {h : HandlerPlace Tid} {s : Sched Tid} {c : Tid}
    (hp : Phase strong h s c) (fold : Tid → ℕ) {t : Tid} (policy : Policy) (road : Road)
    (hroad : road ≠ .deferred → h = .idle)
    (ht : strong → s.state t = .running → s.disposition t = .terminating) :
    (∃ c', Phase strong h (setThreadReady s fold t policy road) c') ∧
      s.Kept (setThreadReady s fold t policy road) := by
  have hready := hp.makeReady fold (t := t) fun hstrong _ => ht hstrong
  have hkept := (hp.tidy.makeReady fold t).2.kept
  unfold Core.setThreadReady
  dsimp only
  split
  · next hdec =>
    obtain ⟨p, hsett, hkept'⟩ := hready.toConsistent.decide fold .preempted (by decide)
      fun h => by cases h
    refine ⟨⟨p, settled_phase hsett fun prev he => ?_⟩, hkept.trans hkept'⟩
    rw [hroad hdec.2.2] at he
    cases he
  · exact ⟨⟨c, hready⟩, hkept⟩

omit [Fintype Tid] in
/-- The thread that makes a step of its own, in the phase of the core. -/
theorem Inv.running {k : Core Tid} {c : Tid} (hi : Inv strong k) (hrun : k.runningThread = some c) :
    k.irqs = [] ∧ k.handler = .idle ∧ Phase strong k.handler k.sched c := by
  obtain ⟨hirqs, hidle, hcur, -, -⟩ := runningThread_eq_some hrun
  obtain ⟨c', hc⟩ := hi.phase
  obtain rfl : c = c' := Option.some.inj (hcur.symm.trans hc.currentThread)
  exact ⟨hirqs, hidle, hc⟩

omit [DecidableEq Tid] [Fintype Tid] in
/-- The thread that the handler has read. -/
theorem Inv.guarded {k : Core Tid} {prev : Tid} (hi : Inv strong k) (hh : k.handler = .guard prev) :
    k.sched.Consistent prev ∧ (k.sched.disposition prev = .terminating → prev ≠ k.sched.idleThread) := by
  obtain ⟨c, hc⟩ := hi.phase
  obtain rfl := hc.guarded prev hh
  exact ⟨hc.toConsistent, fun hd he => hi.idle (he ▸ hd)⟩

/-- A decision the running thread makes for itself settles the core again. -/
theorem Inv.threadDecide {k : Core Tid} (hi : Inv strong k) {c : Tid} (fold : Tid → ℕ)
    {reason : Departure} (hrun : k.runningThread = some c) (hreason : reason ≠ .exited)
    (hpark : reason = .parked → c ≠ k.sched.idleThread ∧ k.sched.disposition c ≠ .terminating) :
    Inv strong { k with sched := k.sched.decide fold reason } := by
  obtain ⟨-, hidle, hc⟩ := hi.running hrun
  obtain ⟨p, hsett, hkept⟩ := hc.toConsistent.decide fold reason hreason hpark
  exact ⟨⟨p, settled_phase hsett fun prev he => by simp [hidle] at he⟩, kept_idle hkept hi.idle⟩

omit [DecidableEq Tid] [Fintype Tid] in
/-- Inside the switch only what the wakes keep is left to show. -/
theorem Phase.inside {h h' : HandlerPlace Tid} {s s' : Sched Tid} {c : Tid} (hp : Phase strong h s c)
    (htidy : s'.Tidy) (hw : s.Woken s') (hh : ∀ prev, h' ≠ .guard prev)
    (hin : ¬ (h' = .idle ∨ h' = .switching)) : Phase strong h' s' c :=
  ⟨hp.toConsistent.woken htidy hw, fun prev he => absurd he (hh prev), fun _ he => absurd he hin⟩

/-- **One step keeps the invariant**: the weak form always, the strong form if it meets the
condition. -/
theorem Inv.next {k k' : Core Tid} {act : CoreAct Tid} (hi : Inv strong k)
    (hok : strong → ReadiesNoRunning k act) (h : k.next act = some k') : Inv strong k' := by
  obtain ⟨c, hc⟩ := hi.phase
  have hdisp : ∀ t d, (t = k.sched.idleThread → d ≠ .terminating) →
      (∃ c, Phase strong k.handler (k.sched.setDisposition t d) c) ∧
        (k.sched.setDisposition t d).disposition k.sched.idleThread ≠ .terminating := by
    intro t d hd
    refine ⟨⟨c, hc.transfer (hc.tidy.setDisposition t d) rfl rfl⟩, ?_⟩
    simp only [Sched.setDisposition, Function.update_apply]
    split
    · next he => exact hd he.symm
    · exact hi.idle
  cases effect_of_next h with
  | irqEnter | irqReturn | refused | unparked | claimed => exact ⟨hi.phase, hi.idle⟩
  | wake | look => exact ⟨by simpa using hi.phase, by simpa using hi.idle⟩
  | @clear t =>
      obtain ⟨hphase, hidle⟩ := hdisp t .none fun _ => by decide
      exact ⟨by simpa using hphase, by rwa [moveTo_sched]⟩
  | @ready fold road t policy hexec hopen =>
      obtain ⟨hp, hkept⟩ := hc.setThreadReady fold policy road
        (handler_of_roadOpen hexec hopen) fun hstrong => hok hstrong t policy hexec
      refine ⟨?_, kept_idle hkept hi.idle⟩
      simp only [moveTo_handler]
      exact hp
  | prepare _ hidle | unprepare _ hidle | exit _ hidle =>
      obtain ⟨hphase, hne⟩ := hdisp _ _ fun he => absurd he hidle
      exact ⟨hphase, hne⟩
  | park hrun hidle hprep => exact hi.threadDecide _ hrun (by decide) fun _ => ⟨hidle, by simp [hprep]⟩
  | yield hrun => exact hi.threadDecide _ hrun (by decide) (by simp)
  | hold | claim | push | file =>
      exact ⟨⟨c, hc.transfer (hc.tidy.transfer rfl rfl rfl rfl rfl rfl rfl rfl) rfl rfl⟩, hi.idle⟩
  | enter => exact ⟨⟨c, hc.inside hc.tidy (Sched.Woken.refl _) (by simp) (by simp)⟩, hi.idle⟩
  | take =>
      exact ⟨⟨c, hc.inside (hc.tidy.transfer rfl rfl rfl rfl rfl rfl rfl rfl)
        ⟨rfl, rfl, rfl, rfl, rfl, fun _ => Or.inl rfl, fun _ => Or.inl rfl⟩ (by simp) (by simp)⟩, hi.idle⟩
  | @service t =>
      obtain ⟨ht, hw⟩ := hc.tidy.takeRequests t
      obtain ⟨ht', hw'⟩ := ht.revokePrepared t
      exact ⟨⟨c, hc.inside ht' (hw.trans hw') (by simp) (by simp)⟩, kept_idle (hw.trans hw').kept hi.idle⟩
  | @skip t =>
      obtain ⟨ht, hw⟩ := hc.tidy.takeRequests t
      exact ⟨⟨c, hc.inside ht hw (by simp) (by simp)⟩, kept_idle hw.kept hi.idle⟩
  | @serviced fold t =>
      obtain ⟨htidy, hw⟩ := hc.tidy.makeReady fold t
      exact ⟨⟨c, hc.inside htidy hw (by simp) (by simp)⟩, kept_idle hw.kept hi.idle⟩
  | prev _ _ hcur =>
      obtain rfl := Option.some.inj (hcur.symm.trans hc.currentThread)
      exact ⟨⟨_, hc.toConsistent, fun prev he => by cases he; rfl, fun _ he => by simp at he⟩, hi.idle⟩
  | guard _ hh hs =>
      obtain ⟨hcons, hidle⟩ := hi.guarded hh
      obtain ⟨p, hsett, hdone⟩ := hcons.rescheduleGuarded hidle hs
      refine ⟨⟨p, settled_phase hsett (by simp)⟩, ?_⟩
      rcases hdone with ⟨-, -, hret⟩ | ⟨-, hkept⟩
      · simp only [hret.idleThread]
        exact fun hd => hi.idle ((hret.terminating _).1 hd)
      · exact kept_idle hkept hi.idle
  | switch _ hh =>
      exact ⟨⟨c, hc.toConsistent, fun prev he => absurd he (by simp),
        fun hstrong _ => hc.settled hstrong (Or.inr hh)⟩, hi.idle⟩

theorem inv_boot (idle : Tid) (basePriority : Tid → Level) (threads : List Tid) :
    Inv strong (boot idle basePriority threads) := by
  obtain ⟨c, hc⟩ := Sched.settled_boot idle basePriority threads
  refine ⟨⟨c, settled_phase hc fun prev he => by cases he⟩, ?_⟩
  exact kept_idle (Sched.kept_boot idle basePriority threads) (by simp [Sched.initialise])

end Phase

variable [Fintype Tid]

/-! ### The ready structure along a run -/

/-- **The ready structure of a core outside its scheduler.** -/
structure ReadyStructure (s : Sched Tid) (levels : Level → List Tid) (hs : List Tid) : Prop where
  /-- One thread is in state running, and it is the current one. -/
  running : ∃ c, s.currentThread = some c ∧ ∀ t, s.state t = .running ↔ t = c
  /-- Each level is linked from its head to its tail, which is its last element, no thread twice. -/
  level : ∀ p, Rep s.next (s.matrix p) (levels p)
  holders : Rep s.holderNext s.holders hs
  /-- A ready thread other than the idle thread is at its base priority or a holder, not both. -/
  ready : ∀ t, s.state t = .ready → t ≠ s.idleThread → Xor (t ∈ levels (s.basePriority t)) (t ∈ hs)
  base : ∀ p, ∀ t ∈ levels p, p = s.basePriority t
  /-- No other thread is linked anywhere. -/
  others : ∀ t, s.state t ≠ .ready ∨ t = s.idleThread → (∀ p, t ∉ levels p) ∧ t ∉ hs
  bitmap : ∀ p : Level, s.bitmap.getLsbD p.val = true ↔ levels p ≠ []
  /-- Who is not linked points to itself. -/
  sentinel : ∀ t, (∀ p, t ∉ levels p) → s.next t = some t
  holderSentinel : ∀ t, t ∉ hs → s.holderNext t = some t

omit [DecidableEq Tid] [Fintype Tid] in
theorem Settled.readyStructure {s : Sched Tid} {c : Tid} (h : s.Settled c) :
    ∃ levels hs, ReadyStructure s levels hs := by
  obtain ⟨levels, hs, hf, hR⟩ := h.tidy.filed
  refine ⟨levels, hs, ⟨c, h.currentThread, fun t => ⟨h.only t, fun ht => ht ▸ h.running⟩⟩, hf.level,
    hf.holders, fun t hready hidle => ?_, fun p t ht => (hf.base p t ht).symm, fun t ht => ?_,
    hf.bitmap, fun t ht => hf.sentinel t (ht _), hf.holderSentinel⟩
  · rcases (hR t).1 ⟨hready, hidle⟩ with hl | hh
    · exact Or.inl ⟨hl, hf.apart _ t hl⟩
    · exact Or.inr ⟨hh, fun hl => hf.apart _ t hl hh⟩
  · have hnot : t ∉ s.readySet := fun hr => ht.elim (fun h => h hr.1) fun h => hr.2 h
    rw [hR, not_or] at hnot
    exact ⟨fun p hp => hnot.1 (hf.mem_level_iff.1 hp).2, hnot.2⟩

/-- **The ready structure is kept.**  In every run from the start in which no wake readies the running
thread, whenever the core is outside the reschedule handler its ready structure is in order. -/
theorem ready_structure_kept (idle : Tid) (basePriority : Tid → Level) (threads : List Tid)
    (acts : List (CoreAct Tid)) (k : Core Tid)
    (hok : Meets next ReadiesNoRunning (boot idle basePriority threads) acts)
    (h : run next (boot idle basePriority threads) acts = some k) (hout : k.handler = .idle) :
    ∃ levels hs, ReadyStructure k.sched levels hs := by
  have hi : Inv True k := run_invariant_of_meets (fun _ _ _ hi hok h => hi.next (fun _ => hok) h)
    (inv_boot idle basePriority threads) hok h
  obtain ⟨c, hc⟩ := hi.settled hout
  exact Settled.readyStructure hc

/-! ### Two interrupts and one wake -/

/-- The idle thread, and two threads of which the second is the more urgent. -/
def twoThreads : Fin 3 → Level := fun t => if t = 0 then 31 else if t = 1 then 5 else 3

/-- Thread 2 parks.  An interrupt wakes it. -/
def plainWake : List (CoreAct (Fin 3)) :=
  [.prepare, .commitToBlock fun _ => 0, .irqEnter, .wake 2 .automatic, .wakeClear, .wakeLook,
    .wakeReady (fun _ => 0) .interrupt, .irqReturn]

/-- The interrupt that wakes it is interrupted past its look at the state, by one that wakes it too. -/
def nestedWake : List (CoreAct (Fin 3)) :=
  [.prepare, .commitToBlock fun _ => 0, .irqEnter, .wake 2 .automatic, .wakeClear, .wakeLook,
    .irqEnter, .wake 2 .automatic, .wakeClear, .wakeLook, .wakeReady (fun _ => 0) .interrupt, .irqReturn,
    .wakeReady (fun _ => 0) .interrupt, .irqReturn]

/-- **The running thread can be admitted.**  The nested wake makes thread 2 the running thread; the
outer one, past its look, then files it.  The core is left with no running thread at all. -/
theorem nested_wake_admits_running :
    ∃ k, run next (boot 0 twoThreads [1, 2]) nestedWake = some k ∧ k.handler = .idle ∧
      k.irqs = [] ∧ k.sched.currentThread = some 2 ∧ k.sched.isEnqueued 2 = true ∧
      ¬ ∃ levels hs, ReadyStructure k.sched levels hs := by
  refine ⟨_, rfl, rfl, rfl, rfl, rfl, ?_⟩
  rintro ⟨levels, hs, h⟩
  obtain ⟨c, -, hc⟩ := h.running
  have hrun := (hc c).2 rfl
  revert hrun
  fin_cases c <;> exact fun h => by cases h

theorem ready_structure_kept_plain :
    ∃ k, run next (boot 0 twoThreads [1, 2]) plainWake = some k ∧
      ∃ levels hs, ReadyStructure k.sched levels hs := by
  have hok : Meets next ReadiesNoRunning (boot 0 twoThreads [1, 2]) plainWake := by
    refine ⟨trivial, trivial, trivial, trivial, trivial, trivial, ?_, trivial, trivial⟩
    intro t policy hexec hrun
    cases hexec
    cases hrun
  exact ⟨_, rfl, ready_structure_kept 0 twoThreads [1, 2] plainWake _ hok rfl rfl⟩

end Core

end Cyros.Kernel
