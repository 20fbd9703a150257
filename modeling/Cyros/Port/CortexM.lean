import Mathlib.Data.Option.Basic
import Mathlib.Logic.Function.Basic
import Mathlib.Tactic.Common

/-!
# The Cortex-M switch: owed switches and PendSV

What the two Cortex-M core layers share and where they part.  Both record a decided switch as **owed**
and pend PendSV, whose handler carries it out; both set PendSV's pending bit for a reschedule.

* ARMv7-M and ARMv8-M (`Arch.mainline`) disable preemption by BASEPRI, which keeps PendSV from being
  taken, and refuse to owe a switch while PendSV is active.  Their dispatch is open to interrupts between
  any two accesses.
* ARMv6-M has no BASEPRI.  A depth counter makes PendSV defer the reschedule to `preempt_enable`, and the
  owed switch is read and cleared masked.

A stack pointer is modelled by the thread whose frame it points at, `none` for the null pointer.
-/

namespace Cyros.Port.CortexM

inductive Arch where
  | mainline
  | armv6m
  deriving DecidableEq, Repr

/-- The core layer as built: the architecture and `CYROS_PORT_CORE_COUNT`. -/
structure Build where
  arch : Arch
  coreCount : ℕ

/-- `cyros_port_context`.  ARMv6-M's has no `core`, and never writes it here. -/
structure Context (Ctx : Type) where
  sp : Option Ctx
  tls : ℕ
  stackLimit : ℕ
  core : ℕ

/-- What `cyros_port_context_destroy` leaves. -/
def Context.destroyed (Ctx : Type) : Context Ctx := ⟨none, 0, 0, 0⟩

/-- `owed_switch`: a switch PendSV still has to carry out, and whether the kernel was asked for too. -/
structure Owed (Ctx : Type) where
  source : Option Ctx
  dest : Option Ctx
  reschedule : Bool
  deriving DecidableEq, Repr

/-- Where PendSV stands in `cyros_port_pendsv_dispatch`: `idle` while its handler is not active. -/
inductive Dispatch (Ctx : Type) where
  | idle
  /-- Taken, before the owed switch is looked at. -/
  | entered
  /-- ARMv7-M: an owed switch was read and is about to be made, then cleared. -/
  | switching (dest : Ctx)
  | clearing
  /-- ARMv7-M: before the read of `owed.reschedule`, and before its clear. -/
  | looking
  | unflagging
  /-- ARMv6-M: before the read of the depth, and before either store of the deferred flag. -/
  | checking
  | deferring
  | undeferring
  /-- Before the call of the reschedule handler, and inside it. -/
  | calling
  | handling
  | returning
  deriving DecidableEq, Repr

/-- The registers and the per-core variables of one core. -/
structure Cpu (Ctx : Type) where
  psp : Option Ctx
  currentTls : ℕ
  /-- The stack limit the guard holds, PSPLIM or an MPU region. -/
  guard : ℕ
  owed : Owed Ctx
  /-- ICSR.PENDSVSET, cleared as the exception is taken. -/
  pending : Bool
  /-- PRIMASK of the thread.  Handlers run with it clear. -/
  primask : Bool
  /-- BASEPRI, or `preempt_depth`. -/
  preempt : ℕ
  /-- `reschedule_deferred`. -/
  deferred : Bool
  pendsv : Dispatch Ctx

variable {Ctx : Type}

namespace Cpu

/-- A write of PENDSVSET. -/
def pendSvSet (p : Cpu Ctx) : Cpu Ctx := { p with pending := true }

/-- The store `pend_reschedule` makes when a switch is owed. -/
def askReschedule (p : Cpu Ctx) : Cpu Ctx := { p with owed := { p.owed with reschedule := true } }

/-- `cyros_port_owe_switch`: a switch owed already keeps its source. -/
def oweSwitch (p : Cpu Ctx) (source dest : Ctx) : Cpu Ctx :=
  { p with
    owed := { p.owed with
      source := if p.owed.dest = none then some source else p.owed.source
      dest := some dest } }.pendSvSet

/-- `cyros_port_direct_switch`, up to the release of the mask it was called with. -/
def directSwitch (p : Cpu Ctx) (source dest : Ctx) : Cpu Ctx :=
  { p with owed := { p.owed with source := some source, dest := some dest }, primask := false }.pendSvSet

/-- What `cyros_port_interrupted_at_baseline` adds to its caller being an interrupt's handler. -/
def interruptedAtBaseline [DecidableEq Ctx] (arch : Arch) (p : Cpu Ctx) : Bool :=
  match arch with
  | .mainline => p.preempt == 0 && p.pendsv == .idle
  | .armv6m => p.preempt == 0

/-- PendSV is pending and nothing the thread did holds it back. -/
def takesPendSv (arch : Arch) (p : Cpu Ctx) : Bool :=
  p.pending && !p.primask && (arch == .armv6m || p.preempt == 0)

/-- What `preempt_disable` writes over the token it read: BASEPRI at PendSV's level, or one more. -/
def preemptRaised (arch : Arch) (token : ℕ) : ℕ :=
  match arch with
  | .mainline => 0xFF
  | .armv6m => token + 1

theorem preemptRaised_ne_zero (arch : Arch) (token : ℕ) : preemptRaised arch token ≠ 0 := by
  cases arch <;> simp [preemptRaised]

end Cpu

/-- The memory and the registers a switch works on. -/
structure Machine (Ctx : Type) where
  contexts : Ctx → Context Ctx
  cpu : Cpu Ctx

namespace Machine

variable [DecidableEq Ctx]

/-- The first half of `switch_stacks`: the stack pointer and the TLS pointer, saved. -/
def saveStack (m : Machine Ctx) : Option Ctx → Machine Ctx
  | none => m
  | some source =>
      let saved := { m.contexts source with sp := m.cpu.psp, tls := m.cpu.currentTls }
      { m with contexts := Function.update m.contexts source saved }

/-- The second half: the incoming thread's stack, its guard and its TLS, and the core it runs on. -/
def loadStack (b : Build) (core : ℕ) (dest : Ctx) (m : Machine Ctx) : Machine Ctx where
  cpu := { m.cpu with
    psp := (m.contexts dest).sp
    guard := (m.contexts dest).stackLimit
    currentTls := (m.contexts dest).tls }
  contexts :=
    if b.arch = .mainline ∧ 1 < b.coreCount then
      Function.update m.contexts dest { m.contexts dest with core := core }
    else m.contexts

/-- `switch_stacks`. -/
def switchStacks (b : Build) (core : ℕ) (source : Option Ctx) (dest : Ctx) (m : Machine Ctx) :
    Machine Ctx :=
  (m.saveStack source).loadStack b core dest

/-- PendSV moves on in its dispatch. -/
def moveTo (m : Machine Ctx) (d : Dispatch Ctx) : Machine Ctx :=
  { m with cpu := { m.cpu with pendsv := d } }

/-- PendSV leaves of the owed switch what `o` says. -/
def setOwed (m : Machine Ctx) (o : Owed Ctx) : Machine Ctx := { m with cpu := { m.cpu with owed := o } }

def setDeferred (m : Machine Ctx) (deferred : Bool) : Machine Ctx :=
  { m with cpu := { m.cpu with deferred := deferred } }

/-- `cyros_port_pendsv_dispatch` on ARMv7-M and ARMv8-M, access by access, up to the handler's call. -/
def mainlineDispatch (b : Build) (core : ℕ) (m : Machine Ctx) : Option (Machine Ctx) :=
  match m.cpu.pendsv with
  | .entered => match m.cpu.owed.dest with
    | some dest => some (m.moveTo (.switching dest))
    | none => some (m.moveTo .calling)
  | .switching dest => some ((m.switchStacks b core m.cpu.owed.source dest).moveTo .clearing)
  | .clearing => some ((m.setOwed { m.cpu.owed with dest := none }).moveTo .looking)
  | .looking => some (m.moveTo (if m.cpu.owed.reschedule then .unflagging else .returning))
  | .unflagging => some ((m.setOwed { m.cpu.owed with reschedule := false }).moveTo .calling)
  | _ => none

/-- `cyros_port_pendsv_dispatch` on ARMv6-M.  The owed switch is made, cleared and its request taken
with interrupts masked, in one step. -/
def armv6mDispatch (b : Build) (core : ℕ) (m : Machine Ctx) : Option (Machine Ctx) :=
  match m.cpu.pendsv with
  | .entered => match m.cpu.owed.dest with
    | some dest =>
        let made := m.switchStacks b core m.cpu.owed.source dest
        some ((made.setOwed { made.cpu.owed with dest := none, reschedule := false }).moveTo
          (if m.cpu.owed.reschedule then .checking else .returning))
    | none => some (m.moveTo .checking)
  | .checking => some (m.moveTo (if m.cpu.preempt = 0 then .undeferring else .deferring))
  | .deferring => some ((m.setDeferred true).moveTo .returning)
  | .undeferring => some ((m.setDeferred false).moveTo .calling)
  | _ => none

def dispatch (b : Build) (core : ℕ) (m : Machine Ctx) : Option (Machine Ctx) :=
  match b.arch with
  | .mainline => m.mainlineDispatch b core
  | .armv6m => m.armv6mDispatch b core

/-- The steps of the dispatch, ARMv7-M's and then ARMv6-M's. -/
inductive Dispatches (b : Build) (core : ℕ) (m : Machine Ctx) : Machine Ctx → Prop where
  | read (arch : b.arch = .mainline) (place : m.cpu.pendsv = .entered) (dest : Ctx)
      (owed : m.cpu.owed.dest = some dest) : Dispatches b core m (m.moveTo (.switching dest))
  | call (arch : b.arch = .mainline) (place : m.cpu.pendsv = .entered) (owed : m.cpu.owed.dest = none) :
      Dispatches b core m (m.moveTo .calling)
  | switch (arch : b.arch = .mainline) (dest : Ctx) (place : m.cpu.pendsv = .switching dest) :
      Dispatches b core m ((m.switchStacks b core m.cpu.owed.source dest).moveTo .clearing)
  | clear (arch : b.arch = .mainline) (place : m.cpu.pendsv = .clearing) :
      Dispatches b core m ((m.setOwed { m.cpu.owed with dest := none }).moveTo .looking)
  | look (arch : b.arch = .mainline) (place : m.cpu.pendsv = .looking) :
      Dispatches b core m (m.moveTo (if m.cpu.owed.reschedule then .unflagging else .returning))
  | unflag (arch : b.arch = .mainline) (place : m.cpu.pendsv = .unflagging) :
      Dispatches b core m ((m.setOwed { m.cpu.owed with reschedule := false }).moveTo .calling)
  | serve (arch : b.arch = .armv6m) (place : m.cpu.pendsv = .entered) (dest : Ctx)
      (owed : m.cpu.owed.dest = some dest) :
      Dispatches b core m (((m.switchStacks b core m.cpu.owed.source dest).setOwed
        { m.cpu.owed with dest := none, reschedule := false }).moveTo
          (if m.cpu.owed.reschedule then .checking else .returning))
  | check (arch : b.arch = .armv6m) (place : m.cpu.pendsv = .entered) (owed : m.cpu.owed.dest = none) :
      Dispatches b core m (m.moveTo .checking)
  | depth (arch : b.arch = .armv6m) (place : m.cpu.pendsv = .checking) :
      Dispatches b core m (m.moveTo (if m.cpu.preempt = 0 then .undeferring else .deferring))
  | defer (arch : b.arch = .armv6m) (place : m.cpu.pendsv = .deferring) :
      Dispatches b core m ((m.setDeferred true).moveTo .returning)
  | undefer (arch : b.arch = .armv6m) (place : m.cpu.pendsv = .undeferring) :
      Dispatches b core m ((m.setDeferred false).moveTo .calling)

/-- A switch only moves the stacks. -/
theorem switchStacks_cpu (b : Build) (core : ℕ) (source : Option Ctx) (dest : Ctx) (m : Machine Ctx) :
    (m.switchStacks b core source dest).cpu = { m.cpu with
      psp := ((m.saveStack source).contexts dest).sp
      guard := ((m.saveStack source).contexts dest).stackLimit
      currentTls := ((m.saveStack source).contexts dest).tls } := by
  cases source <;> rfl

/-- A switch that saves the thread on the core, if any, into its own context: every context that held its
own thread's frame still does. -/
theorem switchStacks_sp (b : Build) (core : ℕ) {source : Option Ctx} {dest x : Ctx} {m : Machine Ctx}
    (hsource : ∀ s, source = some s → m.cpu.psp = some s) (hx : (m.contexts x).sp = some x) :
    ((m.switchStacks b core source dest).contexts x).sp = some x := by
  have hsave : ((m.saveStack source).contexts x).sp = some x := by
    cases source with
    | none => exact hx
    | some s =>
        by_cases hs : x = s
        · subst hs
          simpa [saveStack] using hsource x rfl
        · simpa [saveStack, hs] using hx
  simp only [switchStacks, loadStack]
  split
  · by_cases hd : x = dest
    · subst hd
      simpa using hsave
    · simpa [hd] using hsave
  · exact hsave

/-- And the stack pointer then holds the incoming thread's frame. -/
theorem switchStacks_psp (b : Build) (core : ℕ) {source : Option Ctx} {dest : Ctx} {m : Machine Ctx}
    (hsource : ∀ s, source = some s → m.cpu.psp = some s) (hdest : (m.contexts dest).sp = some dest) :
    (m.switchStacks b core source dest).cpu.psp = some dest := by
  rw [switchStacks_cpu]
  cases source with
  | none => exact hdest
  | some s =>
      by_cases hs : dest = s
      · subst hs
        simpa [saveStack] using hsource dest rfl
      · simpa [saveStack, hs] using hdest

/-- Only the incoming thread's context may come to name another core. -/
theorem switchStacks_core (b : Build) (core : ℕ) (source : Option Ctx) (dest x : Ctx) (m : Machine Ctx) :
    ((m.switchStacks b core source dest).contexts x).core =
      if x = dest ∧ b.arch = .mainline ∧ 1 < b.coreCount then core else (m.contexts x).core := by
  have hsave : ∀ y, ((m.saveStack source).contexts y).core = (m.contexts y).core := by
    intro y
    cases source with
    | none => rfl
    | some s =>
        by_cases hs : y = s
        · subst hs
          simp [saveStack]
        · simp [saveStack, hs]
  simp only [switchStacks, loadStack]
  by_cases hb : b.arch = .mainline ∧ 1 < b.coreCount
  · by_cases hd : x = dest
    · subst hd
      simp [hb]
    · simp [hb, hd, hsave]
  · simp [hb, hsave]

/-- A switch writes the two contexts it is about. -/
theorem switchStacks_contexts_of_ne {b : Build} {core : ℕ} {source : Option Ctx} {dest x : Ctx}
    {m : Machine Ctx} (hsource : source ≠ some x) (hdest : x ≠ dest) :
    (m.switchStacks b core source dest).contexts x = m.contexts x := by
  have hsave : (m.saveStack source).contexts x = m.contexts x := by
    cases source with
    | none => rfl
    | some s =>
        have hs : x ≠ s := fun h => hsource (by rw [h])
        simp [saveStack, hs]
  simp only [switchStacks, loadStack]
  split
  · simpa [hdest] using hsave
  · exact hsave

theorem dispatch_cases {b : Build} {core : ℕ} {m m' : Machine Ctx} (h : m.dispatch b core = some m') :
    Dispatches b core m m' := by
  cases arch : b.arch with
  | mainline =>
      simp only [dispatch, arch, mainlineDispatch] at h
      cases place : m.cpu.pendsv with
      | entered =>
          cases owed : m.cpu.owed.dest with
          | none =>
              simp only [place, owed] at h
              cases h
              exact .call arch place owed
          | some dest =>
              simp only [place, owed] at h
              cases h
              exact .read arch place dest owed
      | switching dest =>
          simp only [place] at h
          cases h
          exact .switch arch dest place
      | clearing =>
          simp only [place] at h
          cases h
          exact .clear arch place
      | looking =>
          simp only [place] at h
          cases h
          exact .look arch place
      | unflagging =>
          simp only [place] at h
          cases h
          exact .unflag arch place
      | _ => simp only [place, reduceCtorEq] at h
  | armv6m =>
      simp only [dispatch, arch, armv6mDispatch] at h
      cases place : m.cpu.pendsv with
      | entered =>
          cases owed : m.cpu.owed.dest with
          | none =>
              simp only [place, owed] at h
              cases h
              exact .check arch place owed
          | some dest =>
              simp only [place, owed, switchStacks_cpu] at h
              cases h
              exact .serve arch place dest owed
      | checking =>
          simp only [place] at h
          cases h
          exact .depth arch place
      | deferring =>
          simp only [place] at h
          cases h
          exact .defer arch place
      | undeferring =>
          simp only [place] at h
          cases h
          exact .undefer arch place
      | _ => simp only [place, reduceCtorEq] at h

/-- The dispatch's own steps stay inside PendSV and outside the kernel's handler. -/
theorem Dispatches.places {b : Build} {core : ℕ} {m m' : Machine Ctx} (h : Dispatches b core m m') :
    (m.cpu.pendsv ≠ .idle ∧ m.cpu.pendsv ≠ .handling) ∧
      m'.cpu.pendsv ≠ .idle ∧ m'.cpu.pendsv ≠ .handling := by
  constructor
  · cases h <;> simp_all
  · cases h <;> simp only [moveTo] <;> (try split) <;> simp

end Machine

end Cyros.Port.CortexM
