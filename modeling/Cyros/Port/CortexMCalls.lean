import Mathlib.Data.List.Basic
import Cyros.Lib.Run
import Cyros.Port.CortexM

/-!
# Calls of the Cortex-M port, interleaved

One core of either Cortex-M layer, with every call of `cyros_port_pend_reschedule`,
`cyros_port_thread_yield`, `cyros_port_owe_switch`, `cyros_port_direct_switch` and the preemption control
made by threads, by interrupts nested to any depth, and by the reschedule handler.  Each call is cut into
its accesses, so an interrupt lands between any two of them (`Call`).

`Inv` is what the core keeps about owed switches, masks and preempt-disabled regions, provided a switch is
first owed only with no request outstanding (`OwesUnasked`).
-/

namespace Cyros.Port.CortexM

open Cyros.Lib

/-- Where a thread or a handler stands in a call of the port. -/
inductive Call where
  | idle
  /-- In `pend_reschedule`, before its store of `owed.reschedule`, or before PENDSVSET. -/
  | flag
  | set
  /-- In ARMv6-M's `preempt_enable`, the depth restored to zero: before the read of the deferred flag,
  its clear, and PENDSVSET. -/
  | check
  | clear
  | repend
  deriving DecidableEq, Repr

/-- A thread's or a handler's call, and the tokens of its open preempt-disabled regions. -/
structure Frame where
  call : Call
  tokens : List ℕ
  deriving DecidableEq, Repr

def Frame.fresh : Frame := ⟨.idle, []⟩

/-- A core, its active interrupts, innermost first, its reschedule handler and its threads. -/
structure Requests (Ctx : Type) extends Machine Ctx where
  irqs : List Frame
  handler : Frame
  /-- The call each stack is in. -/
  thread : Option Ctx → Frame

inductive PortAct (Ctx : Type) where
  | irqEnter
  | irqReturn
  /-- The accesses of `pend_reschedule`. -/
  | pendLook
  | pendFlag
  | pendSet
  | preemptDisable
  | preemptEnable
  | enableCheck
  | enableClear
  | enableRepend
  | oweSwitch (source dest : Ctx)
  /-- A thread masks, or releases its outermost mask. -/
  | mask
  | unmask
  | directSwitch (source dest : Ctx)
  | threadYield
  | pendSvEnter
  | dispatch
  | callHandler
  /-- The kernel's handler calls `cyros_port_switch`. -/
  | portSwitch (source : Option Ctx) (dest : Ctx)
  | handlerReturn
  | pendSvReturn
  deriving DecidableEq, Repr

/-- A request is made by the write of PENDSVSET that a pend or a yield comes down to. -/
def PortAct.IsRequest {Ctx : Type} (act : PortAct Ctx) : Prop := act = .pendSet ∨ act = .threadYield

/-- The act owes a switch, from an interrupt or on the thread's road. -/
def PortAct.owes {Ctx : Type} : PortAct Ctx → Bool
  | .oweSwitch .. | .directSwitch .. => true
  | _ => false

variable {Ctx : Type}

/-- One access of a call, by whoever executes it. -/
def callStep (arch : Arch) (p : Cpu Ctx) (f : Frame) : PortAct Ctx → Option (Cpu Ctx × Frame)
  | .pendLook => match f.call with
    | .idle => some (p, { f with call := if p.owed.dest = none then .set else .flag })
    | _ => none
  | .pendFlag => match f.call with
    | .flag => some (p.askReschedule, { f with call := .set })
    | _ => none
  | .pendSet => match f.call with
    | .set => some (p.pendSvSet, { f with call := .idle })
    | _ => none
  | .preemptDisable => match f.call with
    | .idle => some ({ p with preempt := Cpu.preemptRaised arch p.preempt },
        { f with tokens := p.preempt :: f.tokens })
    | _ => none
  | .preemptEnable => match f.call, f.tokens with
    | .idle, token :: tokens => some ({ p with preempt := token },
        ⟨if arch = .armv6m ∧ token = 0 then .check else .idle, tokens⟩)
    | _, _ => none
  | .enableCheck => match f.call with
    | .check => some (p, { f with call := if p.deferred then .clear else .idle })
    | _ => none
  | .enableClear => match f.call with
    | .clear => some ({ p with deferred := false }, { f with call := .repend })
    | _ => none
  | .enableRepend => match f.call with
    | .repend => some (p.pendSvSet, { f with call := .idle })
    | _ => none
  | _ => none

namespace Requests

/-- The calls on the core's stack, innermost first: interrupts, then the reschedule handler or, with
PendSV idle, the thread. -/
def active (s : Requests Ctx) : List Frame :=
  s.irqs ++ match s.cpu.pendsv with
    | .handling => [s.handler]
    | .idle => [s.thread s.cpu.psp]
    | _ => []

/-- Those of handlers. -/
def above (s : Requests Ctx) : List Frame :=
  s.irqs ++ match s.cpu.pendsv with
    | .handling => [s.handler]
    | _ => []

/-- No handler is active and PendSV is not about to be: the thread executes. -/
def threadRuns [DecidableEq Ctx] (arch : Arch) (s : Requests Ctx) : Bool :=
  s.irqs.isEmpty && s.cpu.pendsv == .idle && !s.cpu.takesPendSv arch

/-- The innermost call, unless PendSV is taken instead, or executes code of its own. -/
def executing [DecidableEq Ctx] (arch : Arch) (s : Requests Ctx) : Option Frame :=
  if s.above = [] ∧ s.threadRuns arch = false then none else s.active.head?

def setExecuting [DecidableEq Ctx] (s : Requests Ctx) (p : Cpu Ctx) (f : Frame) : Requests Ctx :=
  match s.irqs with
  | _ :: fs => { s with cpu := p, irqs := f :: fs }
  | [] => match s.cpu.pendsv with
    | .handling => { s with cpu := p, handler := f }
    | _ => { s with cpu := p, thread := Function.update s.thread s.cpu.psp f }

/-- Steps of a thread outside a call. -/
def threadStep [DecidableEq Ctx] (arch : Arch) (s : Requests Ctx) (act : PortAct Ctx) :
    Option (Requests Ctx) :=
  if s.threadRuns arch ∧ (s.thread s.cpu.psp).call = .idle then
    match act with
    | .mask => some { s with cpu := { s.cpu with primask := true } }
    | .unmask => some { s with cpu := { s.cpu with primask := false } }
    | .directSwitch source dest =>
        if s.cpu.primask ∧ s.cpu.preempt = 0 then some { s with cpu := s.cpu.directSwitch source dest }
        else none
    | .threadYield =>
        if s.cpu.primask = false ∧ s.cpu.preempt = 0 then some { s with cpu := s.cpu.pendSvSet }
        else none
    | _ => none
  else none

/-- Steps of PendSV, made with no interrupt active. -/
def pendSvStep [DecidableEq Ctx] (b : Build) (core : ℕ) (s : Requests Ctx) (act : PortAct Ctx) :
    Option (Requests Ctx) :=
  if s.irqs = [] then
    match act, s.cpu.pendsv with
    | .pendSvEnter, .idle =>
        if s.cpu.takesPendSv b.arch then
          some { s with cpu := { s.cpu with pending := false, pendsv := .entered } }
        else none
    | .dispatch, _ => (s.toMachine.dispatch b core).map fun m => { s with toMachine := m }
    | .callHandler, .calling =>
        some { s with toMachine := s.toMachine.moveTo .handling, handler := Frame.fresh }
    | .portSwitch source dest, .handling =>
        some { s with toMachine := s.toMachine.switchStacks b core source dest }
    | .handlerReturn, .handling =>
        if s.handler = Frame.fresh then some { s with toMachine := s.toMachine.moveTo .returning }
        else none
    | .pendSvReturn, .returning => some { s with toMachine := s.toMachine.moveTo .idle }
    | _, _ => none
  else none

/-- One step of the core. -/
def next [DecidableEq Ctx] (b : Build) (core : ℕ) (s : Requests Ctx) (act : PortAct Ctx) :
    Option (Requests Ctx) :=
  match act with
  | .irqEnter => if s.cpu.primask then none else some { s with irqs := Frame.fresh :: s.irqs }
  | .irqReturn => match s.irqs with
    | f :: fs => if f = Frame.fresh then some { s with irqs := fs } else none
    | [] => none
  | .oweSwitch source dest =>
      if s.irqs ≠ [] ∧ s.cpu.interruptedAtBaseline b.arch then
        some { s with cpu := s.cpu.oweSwitch source dest }
      else none
  | .mask | .unmask | .directSwitch .. | .threadYield => s.threadStep b.arch act
  | .pendSvEnter | .dispatch | .callHandler | .portSwitch .. | .handlerReturn | .pendSvReturn =>
      s.pendSvStep b core act
  | _ => match s.executing b.arch with
    | some f => (callStep b.arch s.cpu f act).map fun (p, f') => s.setExecuting p f'
    | none => none

/-- The core as `cyros_port_start_first` leaves it, whatever the contexts hold. -/
def boot (contexts : Ctx → Context Ctx) (first : Ctx) : Requests Ctx where
  contexts := contexts
  cpu :=
    { psp := (contexts first).sp
      currentTls := (contexts first).tls
      guard := (contexts first).stackLimit
      owed := ⟨none, none, false⟩
      pending := false
      primask := false
      preempt := 0
      deferred := false
      pendsv := .idle }
  irqs := []
  handler := Frame.fresh
  thread := fun _ => Frame.fresh

/-- A thread at baseline executes: its own code or a call of the port, but not the end of a
`preempt_enable` that is about to pend what it deferred. -/
def atBaseline [DecidableEq Ctx] (arch : Arch) (s : Requests Ctx) : Bool :=
  s.threadRuns arch && !s.cpu.primask && s.cpu.preempt == 0 &&
    match (s.thread s.cpu.psp).call with
    | .idle | .flag | .set => true
    | .check | .clear | .repend => false

/-! ### Who executes -/

/-- The tokens of the regions handlers have open. -/
def tokens (s : Requests Ctx) : List ℕ := s.above.flatMap Frame.tokens

/-- The preempt grade of the thread beneath every handler. -/
def beneath (s : Requests Ctx) : ℕ := s.tokens.getLastD s.cpu.preempt

/-- A step that moves the executing call from `f` to `f'`: a handler's, or a thread's with no handler
active. -/
inductive Moves [DecidableEq Ctx] (arch : Arch) (s s' : Requests Ctx) (f f' : Frame) : Prop where
  | handler (fs gs : List Frame) (above : s.above = f :: fs) (above' : s'.above = f' :: fs)
      (active : s.active = f :: gs) (active' : s'.active = f' :: gs)
  | thread (runs : s.threadRuns arch = true) (above : s.above = []) (above' : s'.above = [])
      (active : s.active = [f]) (active' : s'.active = [f'])

variable [DecidableEq Ctx]

theorem threadRuns_iff {arch : Arch} {s : Requests Ctx} :
    s.threadRuns arch = true ↔
      s.irqs = [] ∧ s.cpu.pendsv = .idle ∧ s.cpu.takesPendSv arch = false := by
  simp [threadRuns, and_assoc]

theorem setExecuting_cpu (s : Requests Ctx) (p : Cpu Ctx) (f : Frame) :
    (s.setExecuting p f).cpu = p := by
  unfold setExecuting
  split
  · rfl
  · split <;> rfl

theorem executing_moves {arch : Arch} {s : Requests Ctx} {f : Frame} (h : s.executing arch = some f)
    (p : Cpu Ctx) (f' : Frame) (hpendsv : p.pendsv = s.cpu.pendsv) (hpsp : p.psp = s.cpu.psp) :
    Moves arch s (s.setExecuting p f') f f' := by
  unfold executing at h
  split at h
  · cases h
  · next hne =>
    cases hirqs : s.irqs with
    | cons g gs =>
        have hg : g = f := by simpa [active, hirqs] using h
        subst hg
        refine .handler _ _ (by rw [above, hirqs]; rfl) ?_ (by rw [active, hirqs]; rfl) ?_
        · simp [setExecuting, hirqs, above, hpendsv]
        · simp [setExecuting, hirqs, active, hpendsv, hpsp]
    | nil =>
        cases hd : s.cpu.pendsv with
        | handling =>
            have hg : s.handler = f := by simpa [active, hirqs, hd] using h
            subst hg
            refine .handler [] [] (by simp [above, hirqs, hd]) ?_ (by simp [active, hirqs, hd]) ?_ <;>
              simp [setExecuting, hirqs, hd, above, active, hpendsv]
        | idle =>
            have hg : s.thread s.cpu.psp = f := by simpa [active, hirqs, hd] using h
            subst hg
            have habove : s.above = [] := by simp [above, hirqs, hd]
            have hruns : s.threadRuns arch = true := by
              by_contra hr
              exact hne ⟨habove, by simpa using hr⟩
            refine .thread hruns habove ?_ (by simp [active, hirqs, hd]) ?_ <;>
              simp [setExecuting, hirqs, hd, above, active, hpendsv, hpsp]
        | _ => simp [active, hirqs, hd] at h

end Requests

/-! ### What a call does -/

/-- A request made now is not lost to the owed switch: none is owed, or the kernel is to be called too. -/
def Owed.Heard (o : Owed Ctx) : Prop := o.dest = none ∨ o.reschedule = true

/-- PendSV is taken and has not yet cleared the owed switch. -/
def Dispatch.Owing : Dispatch Ctx → Prop
  | .entered | .switching _ | .clearing => True
  | _ => False

/-- The accesses of a call, one by one. -/
inductive CallCase (arch : Arch) (p : Cpu Ctx) (f : Frame) : PortAct Ctx → Cpu Ctx → Frame → Prop where
  | pendLook (call : f.call = .idle) :
      CallCase arch p f .pendLook p { f with call := if p.owed.dest = none then .set else .flag }
  | pendFlag (call : f.call = .flag) :
      CallCase arch p f .pendFlag p.askReschedule { f with call := .set }
  | pendSet (call : f.call = .set) : CallCase arch p f .pendSet p.pendSvSet { f with call := .idle }
  | preemptDisable (call : f.call = .idle) :
      CallCase arch p f .preemptDisable { p with preempt := Cpu.preemptRaised arch p.preempt }
        { f with tokens := p.preempt :: f.tokens }
  | preemptEnable (call : f.call = .idle) (token : ℕ) (rest : List ℕ) (tokens : f.tokens = token :: rest) :
      CallCase arch p f .preemptEnable { p with preempt := token }
        ⟨if arch = .armv6m ∧ token = 0 then .check else .idle, rest⟩
  | enableCheck (call : f.call = .check) :
      CallCase arch p f .enableCheck p { f with call := if p.deferred then .clear else .idle }
  | enableClear (call : f.call = .clear) :
      CallCase arch p f .enableClear { p with deferred := false } { f with call := .repend }
  | enableRepend (call : f.call = .repend) :
      CallCase arch p f .enableRepend p.pendSvSet { f with call := .idle }

theorem callStep_cases {arch : Arch} {p p' : Cpu Ctx} {f f' : Frame} {act : PortAct Ctx}
    (h : callStep arch p f act = some (p', f')) : CallCase arch p f act p' f' := by
  obtain ⟨call, tokens⟩ := f
  cases act <;> cases call <;> simp only [callStep] at h <;> try cases h
  · exact .pendLook rfl
  · exact .pendFlag rfl
  · exact .pendSet rfl
  · exact .preemptDisable rfl
  · cases tokens with
    | nil => cases h
    | cons token rest =>
        cases h
        exact .preemptEnable rfl token rest rfl
  · exact .enableCheck rfl
  · exact .enableClear rfl
  · exact .enableRepend rfl

/-- Everything an access of a call may change, seen from outside the call. -/
structure CallEffect (p p' : Cpu Ctx) (f f' : Frame) : Prop where
  psp : p'.psp = p.psp
  pendsv : p'.pendsv = p.pendsv
  primask : p'.primask = p.primask
  dest : p'.owed.dest = p.owed.dest
  reschedule : p.owed.reschedule = true → p'.owed.reschedule = true
  pending : p.pending = true → p'.pending = true
  deferred : p.deferred = false → p'.deferred = false
  set : f'.call = .set → p'.owed.Heard
  grade : p'.preempt = p.preempt ∧ f'.tokens = f.tokens ∨
    p'.preempt ≠ 0 ∧ f'.tokens = p.preempt :: f.tokens ∨
    f.tokens = p'.preempt :: f'.tokens

theorem CallCase.effect {arch : Arch} {p p' : Cpu Ctx} {f f' : Frame} {act : PortAct Ctx}
    (h : CallCase arch p f act p' f') : CallEffect p p' f f' := by
  cases h with
  | pendLook =>
      refine ⟨rfl, rfl, rfl, rfl, id, id, id, fun hset => Or.inl ?_, Or.inl ⟨rfl, rfl⟩⟩
      by_contra hd
      simp [hd] at hset
  | pendFlag =>
      exact ⟨rfl, rfl, rfl, rfl, fun _ => rfl, id, id, fun _ => Or.inr rfl, Or.inl ⟨rfl, rfl⟩⟩
  | preemptDisable call =>
      have hraised := Cpu.preemptRaised_ne_zero arch p.preempt
      exact ⟨rfl, rfl, rfl, rfl, id, id, id, by simp [call], Or.inr (Or.inl ⟨hraised, rfl⟩)⟩
  | preemptEnable call token rest tokens =>
      refine ⟨rfl, rfl, rfl, rfl, id, id, id, fun hset => ?_, Or.inr (Or.inr tokens)⟩
      split at hset <;> simp at hset
  | enableCheck =>
      refine ⟨rfl, rfl, rfl, rfl, id, id, id, fun hset => ?_, Or.inl ⟨rfl, rfl⟩⟩
      simp only at hset
      split at hset <;> simp at hset
  | enableClear => exact ⟨rfl, rfl, rfl, rfl, id, id, fun _ => rfl, by simp, Or.inl ⟨rfl, rfl⟩⟩
  | pendSet | enableRepend =>
      exact ⟨rfl, rfl, rfl, rfl, id, fun _ => rfl, id, by simp, Or.inl ⟨rfl, rfl⟩⟩

theorem CallEffect.heard {p p' : Cpu Ctx} {f f' : Frame} (he : CallEffect p p' f f')
    (h : p.owed.Heard) : p'.owed.Heard :=
  h.imp (fun hd => by rw [he.dest, hd]) he.reschedule

/-- A deferred request stays deferred, behind a raised grade or the call that finds it, until that call
takes it to pend it. -/
theorem CallCase.keeps_deferred {arch : Arch} {p p' : Cpu Ctx} {f f' : Frame} {act : PortAct Ctx}
    (hc : CallCase arch p f act p' f') (harch : arch = .armv6m) (hdeferred : p.deferred = true) :
    f'.call = .repend ∨ p'.deferred = true ∧ (p.preempt ≠ 0 → p'.preempt ≠ 0 ∨ f'.call = .check) ∧
      (f.call = .check ∨ f.call = .clear → f'.call = .check ∨ f'.call = .clear) := by
  cases hc with
  | pendLook call | pendFlag call | pendSet call | enableRepend call =>
      exact Or.inr ⟨hdeferred, Or.inl, by simp [call]⟩
  | preemptDisable call =>
      exact Or.inr ⟨hdeferred, fun _ => Or.inl (Cpu.preemptRaised_ne_zero arch p.preempt), by simp [call]⟩
  | preemptEnable call token =>
      refine Or.inr ⟨hdeferred, fun _ => ?_, by simp [call]⟩
      by_cases htoken : token = 0
      · exact Or.inr (by simp [harch, htoken])
      · exact Or.inl htoken
  | enableCheck call => exact Or.inr ⟨hdeferred, Or.inl, fun _ => Or.inr (by simp [hdeferred])⟩
  | enableClear => exact Or.inl rfl

theorem CallCase.pending_of_repend {arch : Arch} {p p' : Cpu Ctx} {f f' : Frame} {act : PortAct Ctx}
    (hc : CallCase arch p f act p' f') (hcall : f.call = .repend) : p'.pending = true := by
  cases hc <;> simp_all [Cpu.pendSvSet]

namespace Requests

/-! ### The invariant -/

structure Inv (arch : Arch) (s : Requests Ctx) : Prop where
  unmasked : s.above ≠ [] ∨ s.cpu.pendsv ≠ .idle → s.cpu.primask = false
  regions : ∀ n ∈ (s.cpu.preempt :: s.tokens).dropLast, n ≠ 0
  asking : ∀ f ∈ s.above, f.call = .set → s.cpu.owed.Heard
  owing : s.cpu.owed.dest ≠ none →
    s.cpu.primask = false ∧ s.beneath = 0 ∧ (s.cpu.pending = true ∨ s.cpu.pendsv.Owing)
  looking : s.cpu.pendsv = .looking → s.cpu.owed.dest = none ∧ arch = .mainline
  deferring : s.cpu.pendsv = .deferring → s.beneath ≠ 0
  mainline : arch = .mainline → s.cpu.deferred = false

section Inv

variable {arch : Arch} {s s' : Requests Ctx}

theorem beneath_of_above (h : s.above = []) : s.beneath = s.cpu.preempt := by
  simp [beneath, tokens, h]

/-- A handler that finds the grade open finds no handler's region open, so the thread's is. -/
theorem Inv.beneath_eq_zero (hi : Inv arch s) (h : s.cpu.preempt = 0) : s.beneath = 0 := by
  cases ht : s.tokens with
  | nil => simp [beneath, ht, h]
  | cons n ns =>
      have := hi.regions s.cpu.preempt (by simp [ht])
      contradiction

variable [DecidableEq Ctx]

theorem above_of_threadRuns (h : s.threadRuns arch = true) : s.above = [] := by
  obtain ⟨hirqs, hpendsv, -⟩ := threadRuns_iff.mp h
  simp [above, hirqs, hpendsv]

/-- While a thread executes, no switch is owed: PendSV would be taken first. -/
theorem Inv.dest_of_threadRuns (hi : Inv arch s) (h : s.threadRuns arch = true) :
    s.cpu.owed.dest = none := by
  obtain ⟨hirqs, hpendsv, htakes⟩ := threadRuns_iff.mp h
  by_contra hd
  obtain ⟨hprimask, hbeneath, hpending⟩ := hi.owing hd
  rw [beneath_of_above (above_of_threadRuns h)] at hbeneath
  simp [Cpu.takesPendSv, hpendsv, hprimask, hbeneath, Dispatch.Owing] at htakes hpending
  simp [htakes] at hpending

omit [DecidableEq Ctx] in
/-- A handler's call leaves the grade of the thread beneath as it was. -/
theorem beneath_call {f f' : Frame} {fs : List Frame} (he : CallEffect s.cpu s'.cpu f f')
    (above : s.above = f :: fs) (above' : s'.above = f' :: fs) : s'.beneath = s.beneath := by
  simp only [beneath, tokens, above, above', List.flatMap_cons]
  rcases he.grade with ⟨hp, ht⟩ | ⟨-, ht⟩ | ht
  · rw [hp, ht]
  · rw [ht, List.cons_append, List.getLastD_cons]
  · rw [ht, List.cons_append, List.getLastD_cons]

theorem Inv.call {f f' : Frame} (hi : Inv arch s) (hm : Moves arch s s' f f')
    (he : CallEffect s.cpu s'.cpu f f') : Inv arch s' := by
  have hmainline : arch = .mainline → s'.cpu.deferred = false := fun h => he.deferred (hi.mainline h)
  cases hm with
  | thread runs above above' =>
      have hidle : s'.cpu.pendsv = .idle := he.pendsv.trans (threadRuns_iff.mp runs).2.1
      have hdest : s'.cpu.owed.dest = none := he.dest.trans (hi.dest_of_threadRuns runs)
      refine ⟨?_, ?_, ?_, fun h => absurd hdest h, ?_, ?_, hmainline⟩
      · simp [above', hidle]
      · simp [tokens, above']
      · simp [above']
      · simp [hidle]
      · simp [hidle]
  | handler fs gs above above' =>
      have hbeneath := beneath_call he above above'
      refine ⟨fun _ => ?_, ?_, ?_, ?_, ?_, ?_, hmainline⟩
      · rw [he.primask]
        exact hi.unmasked (Or.inl (by simp [above]))
      · have hregions := hi.regions
        simp only [tokens, above, above', List.flatMap_cons] at hregions ⊢
        rcases he.grade with ⟨hp, ht⟩ | ⟨hp, ht⟩ | ht
        · rwa [hp, ht]
        · rw [ht, List.cons_append, List.dropLast_cons_of_ne_nil (by simp)]
          exact List.forall_mem_cons.mpr ⟨hp, hregions⟩
        · rw [ht, List.cons_append, List.dropLast_cons_of_ne_nil (by simp)] at hregions
          exact (List.forall_mem_cons.mp hregions).2
      · rw [above']
        refine List.forall_mem_cons.mpr ⟨he.set, fun g hg hset => he.heard ?_⟩
        exact hi.asking g (by simp [above, hg]) hset
      · intro hdest
        rw [he.dest] at hdest
        obtain ⟨hprimask, hzero, hpending⟩ := hi.owing hdest
        rw [he.primask, hbeneath, he.pendsv]
        exact ⟨hprimask, hzero, hpending.imp_left he.pending⟩
      · rw [he.pendsv, he.dest]
        exact hi.looking
      · rw [he.pendsv, hbeneath]
        exact hi.deferring

end Inv

/-- The invariant with PendSV in its own code or idle, and no interrupt active. -/
structure Bare (arch : Arch) (p : Cpu Ctx) : Prop where
  unmasked : p.pendsv ≠ .idle → p.primask = false
  owing : p.owed.dest ≠ none →
    p.primask = false ∧ p.preempt = 0 ∧ (p.pending = true ∨ p.pendsv.Owing)
  looking : p.pendsv = .looking → p.owed.dest = none ∧ arch = .mainline
  deferring : p.pendsv = .deferring → p.preempt ≠ 0
  mainline : arch = .mainline → p.deferred = false

theorem above_of_bare {s : Requests Ctx} (hirqs : s.irqs = []) (hpendsv : s.cpu.pendsv ≠ .handling) :
    s.above = [] := by
  cases hd : s.cpu.pendsv <;> simp_all [above]

theorem Inv.bare {arch : Arch} {s : Requests Ctx} (hi : Inv arch s) (hirqs : s.irqs = [])
    (hpendsv : s.cpu.pendsv ≠ .handling) : Bare arch s.cpu := by
  have hbeneath := beneath_of_above (above_of_bare hirqs hpendsv)
  refine ⟨fun h => hi.unmasked (Or.inr h), ?_, hi.looking, ?_, hi.mainline⟩
  · rw [← hbeneath]
    exact hi.owing
  · rw [← hbeneath]
    exact hi.deferring

theorem Bare.inv {arch : Arch} {s : Requests Ctx} (hb : Bare arch s.cpu) (hirqs : s.irqs = [])
    (hpendsv : s.cpu.pendsv ≠ .handling) : Inv arch s := by
  have habove := above_of_bare hirqs hpendsv
  have hbeneath := beneath_of_above habove
  refine ⟨?_, ?_, ?_, ?_, hb.looking, ?_, hb.mainline⟩
  · rintro (h | h)
    · exact absurd habove h
    · exact hb.unmasked h
  · simp [tokens, habove]
  · simp [habove]
  · rw [hbeneath]
    exact hb.owing
  · rw [hbeneath]
    exact hb.deferring

section Dispatch

variable [DecidableEq Ctx] {b : Build} {core : ℕ} {m m' : Machine Ctx}

theorem Bare.dispatch (hb : Bare b.arch m.cpu) (hd : Machine.Dispatches b core m m') :
    Bare b.arch m'.cpu := by
  have hprimask : m.cpu.primask = false := hb.unmasked hd.places.1.1
  have hpreempt := fun h => (hb.owing h).2.1
  have hpending : ¬ m.cpu.pendsv.Owing → m.cpu.owed.dest ≠ none → m.cpu.pending = true :=
    fun hplace h => (hb.owing h).2.2.resolve_right hplace
  cases hd with
  | read =>
      exact ⟨fun _ => hprimask, fun h => ⟨hprimask, hpreempt h, Or.inr trivial⟩, by rintro ⟨⟩,
        by rintro ⟨⟩, hb.mainline⟩
  | call arch place owed =>
      exact ⟨fun _ => hprimask, fun h => absurd owed h, by rintro ⟨⟩, by rintro ⟨⟩, hb.mainline⟩
  | switch =>
      simp only [Machine.moveTo, Machine.switchStacks_cpu]
      exact ⟨fun _ => hprimask, fun h => ⟨hprimask, hpreempt h, Or.inr trivial⟩, by rintro ⟨⟩,
        by rintro ⟨⟩, hb.mainline⟩
  | clear arch =>
      exact ⟨fun _ => hprimask, fun h => absurd rfl h, fun _ => ⟨rfl, arch⟩, by rintro ⟨⟩, hb.mainline⟩
  | look arch place =>
      have hdest := (hb.looking place).1
      refine ⟨fun _ => hprimask, fun h => absurd hdest h, fun _ => ⟨hdest, arch⟩, ?_, hb.mainline⟩
      simp only [Machine.moveTo]
      split <;> simp
  | unflag arch place =>
      refine ⟨fun _ => hprimask, fun h => ⟨hprimask, hpreempt h, Or.inl ?_⟩, by rintro ⟨⟩,
        by rintro ⟨⟩,hb.mainline⟩
      exact hpending (by simp [place, Dispatch.Owing]) h
  | serve arch place dest owed =>
      simp only [Machine.moveTo, Machine.setOwed, Machine.switchStacks_cpu]
      refine ⟨fun _ => hprimask, fun h => absurd rfl h, ?_, ?_, hb.mainline⟩
      · split <;> simp
      · split <;> simp
  | check arch place owed =>
      exact ⟨fun _ => hprimask, fun h => absurd owed h, by rintro ⟨⟩, by rintro ⟨⟩, hb.mainline⟩
  | depth arch place =>
      refine ⟨fun _ => hprimask, fun h => ⟨hprimask, hpreempt h, Or.inl ?_⟩, ?_, ?_, hb.mainline⟩
      · exact hpending (by simp [place, Dispatch.Owing]) h
      · simp only [Machine.moveTo]
        split <;> simp
      · simp only [Machine.moveTo]
        split <;> simp [*]
  | defer arch place =>
      refine ⟨fun _ => hprimask, fun h => ⟨hprimask, hpreempt h, Or.inl ?_⟩, by rintro ⟨⟩,
        by rintro ⟨⟩,by simp [arch]⟩
      exact hpending (by simp [place, Dispatch.Owing]) h
  | undefer arch place =>
      refine ⟨fun _ => hprimask, fun h => ⟨hprimask, hpreempt h, Or.inl ?_⟩, by rintro ⟨⟩,
        by rintro ⟨⟩,by simp [arch]⟩
      exact hpending (by simp [place, Dispatch.Owing]) h

end Dispatch

/-- Two states of the core that differ in where PendSV stands and in what is on its stacks. -/
structure SameWords (p p' : Cpu Ctx) : Prop where
  owed : p'.owed = p.owed
  pending : p'.pending = p.pending
  primask : p'.primask = p.primask
  preempt : p'.preempt = p.preempt
  deferred : p'.deferred = p.deferred

/-- A handler is entered or left, or PendSV moves after it cleared the owed switch. -/
theorem Inv.shift {arch : Arch} {s s' : Requests Ctx} (hi : Inv arch s) (hw : SameWords s.cpu s'.cpu)
    (htokens : s'.tokens = s.tokens) (hset : ∀ f ∈ s'.above, f.call = .set → f ∈ s.above)
    (hunmasked : s'.above ≠ [] ∨ s'.cpu.pendsv ≠ .idle → s.cpu.primask = false)
    (hplace : s'.cpu.pendsv = s.cpu.pendsv ∨ ¬ s.cpu.pendsv.Owing ∧ s'.cpu.pendsv ≠ .looking ∧
      s'.cpu.pendsv ≠ .deferring) : Inv arch s' := by
  have hbeneath : s'.beneath = s.beneath := by simp only [beneath, htokens, hw.preempt]
  refine ⟨?_, ?_, ?_, ?_, ?_, ?_, ?_⟩
  · rw [hw.primask]
    exact hunmasked
  · rw [hw.preempt, htokens]
    exact hi.regions
  · intro f hf hcall
    rw [hw.owed]
    exact hi.asking f (hset f hf hcall) hcall
  · rw [hw.owed, hw.primask, hw.pending, hbeneath]
    intro hdest
    obtain ⟨hprimask, hzero, hpending⟩ := hi.owing hdest
    refine ⟨hprimask, hzero, ?_⟩
    rcases hplace with hsame | ⟨hafter, -⟩
    · rwa [hsame]
    · exact Or.inl (hpending.resolve_right hafter)
  · intro hlooking
    rcases hplace with hsame | ⟨-, hne, -⟩
    · rw [hw.owed]
      exact hi.looking (hsame ▸ hlooking)
    · exact absurd hlooking hne
  · intro hdeferring
    rcases hplace with hsame | ⟨-, -, hne⟩
    · rw [hbeneath]
      exact hi.deferring (hsame ▸ hdeferring)
    · exact absurd hdeferring hne
  · rw [hw.deferred]
    exact hi.mainline

theorem Inv.irqEnter {arch : Arch} {s : Requests Ctx} (hi : Inv arch s)
    (hprimask : s.cpu.primask = false) : Inv arch { s with irqs := Frame.fresh :: s.irqs } := by
  refine hi.shift ⟨rfl, rfl, rfl, rfl, rfl⟩ ?_ ?_ (fun _ => hprimask) (Or.inl rfl)
  · simp [tokens, above, Frame.fresh]
  · intro f hf hcall
    rcases List.mem_cons.mp hf with rfl | hf
    · cases hcall
    · exact hf

theorem Inv.irqReturn {arch : Arch} {s : Requests Ctx} {fs : List Frame} (hi : Inv arch s)
    (hirqs : s.irqs = Frame.fresh :: fs) : Inv arch { s with irqs := fs } := by
  have hunmasked := hi.unmasked (Or.inl (by simp [above, hirqs]))
  refine hi.shift ⟨rfl, rfl, rfl, rfl, rfl⟩ ?_ ?_ (fun _ => hunmasked) (Or.inl rfl)
  · simp [tokens, above, hirqs, Frame.fresh]
  · intro f hf _
    simp only [above, hirqs] at hf ⊢
    exact List.mem_cons_of_mem _ hf

/-! ### The condition -/

/-- No request is outstanding: none pended, deferred or about to be pended. -/
def Unasked (s : Requests Ctx) : Prop :=
  s.cpu.pending = false ∧ s.cpu.deferred = false ∧ (∀ f ∈ s.above, f.call ≠ .set) ∧
    ∀ f ∈ s.active, f.call ≠ .repend

/-- A switch is owed, with none owed yet, only where no request is outstanding. -/
def OwesUnasked (s : Requests Ctx) (act : PortAct Ctx) : Prop :=
  act.owes = true → s.cpu.owed.dest = none → s.Unasked

instance (s : Requests Ctx) : Decidable s.Unasked := inferInstanceAs (Decidable (_ ∧ _ ∧ _ ∧ _))

instance (s : Requests Ctx) (act : PortAct Ctx) : Decidable (s.OwesUnasked act) :=
  inferInstanceAs (Decidable (_ → _ → _))

section Steps

variable [DecidableEq Ctx] {arch : Arch} {b : Build} {core : ℕ} {s s' : Requests Ctx} {act : PortAct Ctx}

theorem Inv.threadStep (hi : Inv arch s) (h : s.threadStep arch act = some s') : Inv arch s' := by
  unfold Requests.threadStep at h
  split at h
  · next hruns =>
    obtain ⟨hirqs, hidle, -⟩ := threadRuns_iff.mp hruns.1
    have hdest := hi.dest_of_threadRuns hruns.1
    have hhandling : s.cpu.pendsv ≠ .handling := by simp [hidle]
    have hb := hi.bare hirqs hhandling
    split at h
    · cases h
      refine Bare.inv ?_ hirqs hhandling
      exact ⟨fun hp => absurd hidle hp, fun hp => absurd hdest hp, hb.looking, hb.deferring, hb.mainline⟩
    · cases h
      refine Bare.inv ?_ hirqs hhandling
      exact ⟨fun _ => rfl, fun hp => absurd hdest hp, hb.looking, hb.deferring, hb.mainline⟩
    · split at h
      · next hmask =>
        cases h
        refine Bare.inv ?_ hirqs hhandling
        refine ⟨fun _ => rfl, fun _ => ⟨rfl, hmask.2, Or.inl rfl⟩, ?_, hb.deferring, hb.mainline⟩
        exact fun hp => by simp [Cpu.directSwitch, Cpu.pendSvSet, hidle] at hp
      · cases h
    · split at h
      · cases h
        refine Bare.inv ?_ hirqs hhandling
        exact ⟨hb.unmasked, fun hp => absurd hdest hp, hb.looking, hb.deferring, hb.mainline⟩
      · cases h
    · cases h
  · cases h

theorem Inv.oweSwitch {source dest : Ctx} (hi : Inv arch s) (hirqs : s.irqs ≠ [])
    (hbase : s.cpu.interruptedAtBaseline arch = true) (hok : s.OwesUnasked (.oweSwitch source dest)) :
    Inv arch { s with cpu := s.cpu.oweSwitch source dest } := by
  have hzero : s.cpu.preempt = 0 := by
    cases arch <;> simp [Cpu.interruptedAtBaseline] at hbase <;> tauto
  have hbeneath := hi.beneath_eq_zero hzero
  have hprimask := hi.unmasked (Or.inl (by simp [above, hirqs]))
  refine ⟨fun _ => hprimask, hi.regions, ?_, fun _ => ⟨hprimask, hbeneath, Or.inl rfl⟩, ?_, ?_,
    hi.mainline⟩
  · intro f hf hset
    by_cases hdest : s.cpu.owed.dest = none
    · exact absurd hset ((hok rfl hdest).2.2.1 f hf)
    · exact Or.inr ((hi.asking f hf hset).resolve_left hdest)
  · intro hlooking
    obtain ⟨-, harch⟩ := hi.looking hlooking
    simp only [Cpu.oweSwitch, Cpu.pendSvSet] at hlooking
    simp [harch, Cpu.interruptedAtBaseline, hlooking] at hbase
  · intro hdeferring
    exact absurd hbeneath (hi.deferring hdeferring)

theorem Inv.pendSvStep (hi : Inv b.arch s) (h : s.pendSvStep b core act = some s') : Inv b.arch s' := by
  unfold Requests.pendSvStep at h
  split at h
  · next hirqs =>
    split at h
    · next hidle =>
      split at h
      · next htakes => 
        cases h
        have hb := hi.bare hirqs (by simp [hidle])
        simp only [Cpu.takesPendSv, Bool.and_eq_true, Bool.not_eq_true'] at htakes
        refine Bare.inv ?_ hirqs (by simp)
        refine ⟨fun _ => htakes.1.2, fun hp => ⟨htakes.1.2, (hb.owing hp).2.1, Or.inr trivial⟩, by rintro ⟨⟩, by rintro ⟨⟩,
          hb.mainline⟩
      · cases h
    · obtain ⟨m, hm, rfl⟩ := Option.map_eq_some_iff.mp h
      have hd := Machine.dispatch_cases hm
      exact ((hi.bare hirqs hd.places.1.2).dispatch hd).inv hirqs hd.places.2.2
    · next hcalling =>
      cases h
      refine hi.shift ⟨rfl, rfl, rfl, rfl, rfl⟩ ?_ ?_ (fun _ => hi.unmasked (by simp [hcalling])) ?_
      · simp [tokens, above, hirqs, hcalling, Machine.moveTo, Frame.fresh]
      · simp [above, hirqs, Machine.moveTo, Frame.fresh]
      · simp [hcalling, Machine.moveTo, Dispatch.Owing]
    · next source dest hhandling =>
      cases h
      have hcpu := Machine.switchStacks_cpu b core source dest s.toMachine
      have habove : ({ s with toMachine := s.toMachine.switchStacks b core source dest } :
          Requests Ctx).above = s.above := by simp [above, hcpu]
      refine hi.shift ?_ ?_ ?_ (fun _ => hi.unmasked (by simp [hhandling])) ?_
      · constructor <;> rw [hcpu]
      · simp [tokens, habove]
      · exact fun f hf _ => habove ▸ hf
      · simp [hcpu]
    · next hhandling =>
      split at h
      · next hfresh =>
        cases h
        refine hi.shift ⟨rfl, rfl, rfl, rfl, rfl⟩ ?_ ?_ (fun _ => hi.unmasked (by simp [hhandling])) ?_
        · simp [tokens, above, hirqs, hhandling, Machine.moveTo, hfresh, Frame.fresh]
        · simp [above, hirqs, Machine.moveTo]
        · simp [hhandling, Machine.moveTo, Dispatch.Owing]
      · cases h
    · next hreturning =>
      cases h
      refine hi.shift ⟨rfl, rfl, rfl, rfl, rfl⟩ ?_ ?_ (fun _ => hi.unmasked (by simp [hreturning])) ?_
      · simp [tokens, above, hirqs, hreturning, Machine.moveTo]
      · simp [above, hirqs, Machine.moveTo]
      · simp [hreturning, Machine.moveTo, Dispatch.Owing]
    · cases h
  · cases h

/-- A call as a step of the core. -/
theorem call_of_next {f : Frame} (hexec : s.executing arch = some f)
    (h : ((callStep arch s.cpu f act).map fun (p, f') => s.setExecuting p f') = some s') :
    ∃ f', CallCase arch s.cpu f act s'.cpu f' ∧ Moves arch s s' f f' := by
  obtain ⟨⟨p, f'⟩, hcall, rfl⟩ := Option.map_eq_some_iff.mp h
  have hcase := callStep_cases hcall
  refine ⟨f', by rwa [setExecuting_cpu], ?_⟩
  exact executing_moves hexec p f' hcase.effect.pendsv hcase.effect.psp

/-- Every step of the core, by who makes it. -/
inductive Steps (b : Build) (core : ℕ) (s s' : Requests Ctx) (act : PortAct Ctx) : Prop where
  | irqEnter (eq : act = .irqEnter) (primask : s.cpu.primask = false)
      (next : s' = { s with irqs := Frame.fresh :: s.irqs })
  | irqReturn (eq : act = .irqReturn) (fs : List Frame) (irqs : s.irqs = Frame.fresh :: fs)
      (next : s' = { s with irqs := fs })
  | owe (source dest : Ctx) (eq : act = .oweSwitch source dest) (irqs : s.irqs ≠ [])
      (baseline : s.cpu.interruptedAtBaseline b.arch = true)
      (next : s' = { s with cpu := s.cpu.oweSwitch source dest })
  | thread (step : s.threadStep b.arch act = some s')
  | pendSv (step : s.pendSvStep b core act = some s')
  | call (f f' : Frame) (case : CallCase b.arch s.cpu f act s'.cpu f') (moves : Moves b.arch s s' f f')

theorem next_cases (h : next b core s act = some s') : Steps b core s s' act := by
  cases act with
  | irqEnter =>
      simp only [next] at h
      split at h
      · cases h
      · next hmask =>
        cases h
        exact .irqEnter rfl (by simpa using hmask) rfl
  | irqReturn =>
      simp only [next] at h
      split at h
      · next f fs hirqs =>
        split at h
        · next hfresh =>
          cases h
          exact .irqReturn rfl fs (by rw [hirqs, hfresh]) rfl
        · cases h
      · cases h
  | oweSwitch source dest =>
      simp only [next] at h
      split at h
      · next hbase =>
        cases h
        exact .owe source dest rfl hbase.1 hbase.2 rfl
      · cases h
  | mask | unmask | directSwitch | threadYield => exact .thread h
  | pendSvEnter | dispatch | callHandler | portSwitch | handlerReturn | pendSvReturn => exact .pendSv h
  | pendLook | pendFlag | pendSet | preemptDisable | preemptEnable | enableCheck | enableClear |
    enableRepend =>
      simp only [next] at h
      split at h
      · next f hexec =>
        obtain ⟨f', hcase, hmoves⟩ := call_of_next hexec h
        exact .call f f' hcase hmoves
      · cases h

theorem Inv.next (hi : Inv b.arch s) (hok : s.OwesUnasked act) (h : next b core s act = some s') :
    Inv b.arch s' := by
  cases next_cases h with
  | irqEnter _ primask next => exact next ▸ hi.irqEnter primask
  | irqReturn _ fs irqs next => exact next ▸ hi.irqReturn irqs
  | owe source dest eq irqs baseline next =>
      subst eq
      exact next ▸ hi.oweSwitch irqs baseline hok
  | thread step => exact hi.threadStep step
  | pendSv step => exact hi.pendSvStep step
  | call f f' case moves => exact hi.call moves case.effect

end Steps

end Requests

end Cyros.Port.CortexM
