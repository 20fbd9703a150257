import Mathlib.Data.List.Basic
import Mathlib.Logic.Function.Basic
import Mathlib.Algebra.Ring.Nat
import Cyros.Lib.Run

/-!
# The RP2040 FIFOs as a doorbell

The RP2040 has no doorbell, so a request for a reschedule goes to the other core as a word in that core's
FIFO, which raises its interrupt while it holds one.  The FIFO takes eight words.  A sender that finds it
full writes nothing, and a word written into a full one is dropped, with a sticky flag that raises the
sender's own interrupt.

Both cores, each with its FIFO, its flags and its `SIO_FIFO_Handler`, and any number of threads and
interrupts that send, by single accesses in any interleaving.  `owed p` says that the last send of `p` has
made its last access to the FIFO, and that no reschedule has been pended on the other core since.
-/

namespace Cyros.Port.Rp2040Doorbell

open Cyros.Lib

inductive CoreId
  | zero
  | one
  deriving DecidableEq, Repr

def CoreId.other : CoreId → CoreId
  | .zero => .one
  | .one => .zero

/-- The words a FIFO takes. -/
def capacity : ℕ := 8

/-- Where `cyros_port_send_reschedule_ipi` is. -/
inductive SendPlace
  | out
  | check
  | write
  deriving DecidableEq, Repr

/-- Where `SIO_FIFO_Handler` is: the two accesses of `fifo_drain`, the flags, the pend. -/
inductive HandlerPlace
  | out
  | look
  | load
  | clear
  | pend
  deriving DecidableEq, Repr

/-- The cores, and the threads and interrupts `P` that send. -/
structure Bells (P : Type*) where
  /-- The words that wait for a core. -/
  fifo : CoreId → ℕ
  /-- WOF or ROE of a core. -/
  sticky : CoreId → Bool
  handler : CoreId → HandlerPlace
  /-- How often a reschedule was pended on a core. -/
  pends : CoreId → ℕ
  send : P → SendPlace
  owed : P → Bool

inductive Act (P : Type*)
  | send (p : P) (core : CoreId)
  | check (p : P)
  | write (p : P)
  | enter (core : CoreId)
  | handle (core : CoreId)
  deriving DecidableEq, Repr

namespace Bells

variable {P : Type*} [DecidableEq P]

/-- The interrupt line of a core. -/
def line (B : Bells P) (core : CoreId) : Bool := 0 < B.fifo core || B.sticky core

/-- `cyros_port_pend_reschedule` on a core: the sends of the other one are served. -/
def pendOn (home : P → CoreId) (B : Bells P) (core : CoreId) : Bells P :=
  { B with
    pends := Function.update B.pends core (B.pends core + 1)
    owed := fun p => if (home p).other = core then false else B.owed p }

/-- The last access of a send of `p`. -/
def sent (B : Bells P) (p : P) : Bells P :=
  { B with send := Function.update B.send p .out, owed := Function.update B.owed p true }

def setHandler (B : Bells P) (core : CoreId) (place : HandlerPlace) : Bells P :=
  { B with handler := Function.update B.handler core place }

/-- A step of `SIO_FIFO_Handler`. -/
def handle (home : P → CoreId) (B : Bells P) (core : CoreId) : Option (Bells P) :=
  match B.handler core with
  | .out => none
  | .look => some (B.setHandler core (if 0 < B.fifo core then .load else .clear))
  | .load =>
      -- a read of an empty FIFO sets ROE
      some { B.setHandler core .look with
        fifo := Function.update B.fifo core (B.fifo core - 1)
        sticky := Function.update B.sticky core (B.sticky core || B.fifo core == 0) }
  | .clear => some { B.setHandler core .pend with sticky := Function.update B.sticky core false }
  | .pend => some ((B.setHandler core .out).pendOn home core)

/-- **One step**, of a sender or of a core's handler.  `home p` is the core that `p` runs on. -/
def next (home : P → CoreId) (B : Bells P) : Act P → Option (Bells P)
  | .send p core =>
      if B.send p = .out then
        if core = home p then some (B.pendOn home core)
        else some { B with send := Function.update B.send p .check }
      else none
  | .check p =>
      if B.send p = .check then
        if B.fifo (home p).other < capacity then some { B with send := Function.update B.send p .write }
        else some (B.sent p)
      else none
  | .write p =>
      if B.send p = .write then
        if B.fifo (home p).other < capacity then
          some { B.sent p with
            fifo := Function.update B.fifo (home p).other (B.fifo (home p).other + 1) }
        else some { B.sent p with sticky := Function.update B.sticky (home p) true }
      else none
  | .enter core =>
      if B.handler core = .out ∧ B.line core = true then some (B.setHandler core .look) else none
  | .handle core => B.handle home core

/-- The cores after `cyros_port_start_cores`: the launch may have left words and flags. -/
def boot (fifo : CoreId → ℕ) (sticky : CoreId → Bool) : Bells P where
  fifo := fifo
  sticky := sticky
  handler := fun _ => .out
  pends := fun _ => 0
  send := fun _ => .out
  owed := fun _ => false

/-! ### A request that is owed -/

variable {home : P → CoreId} {B B' : Bells P}

/-- A word waits for the core, or its handler runs and has yet to pend. -/
def Due (B : Bells P) (core : CoreId) : Prop := 0 < B.fifo core ∨ B.handler core ≠ .out

/-- **What is owed is due.** -/
def Inv (home : P → CoreId) (B : Bells P) : Prop := ∀ p, B.owed p = true → B.Due (home p).other

omit [DecidableEq P] in
theorem Due.of_le {core : CoreId} (h : B.Due core) (hfifo : B.fifo core ≤ B'.fifo core)
    (hhandler : B.handler core ≠ .out → B'.handler core ≠ .out) : B'.Due core := by
  rcases h with hpos | hin
  · exact Or.inl (by omega)
  · exact Or.inr (hhandler hin)

/-- The last access of a send leaves a word with the other core, its own or the ones it found. -/
theorem Inv.sent (hi : Inv home B) {p : P} (hword : 0 < B'.fifo (home p).other)
    (hfifo : ∀ core, B.fifo core ≤ B'.fifo core) (hhandler : B'.handler = B.handler)
    (howed : B'.owed = Function.update B.owed p true) : Inv home B' := by
  intro q hq
  rw [howed] at hq
  by_cases hqp : q = p
  · subst hqp
    exact Or.inl hword
  · rw [Function.update_of_ne hqp] at hq
    apply (hi q hq).of_le (hfifo _)
    rw [hhandler]
    exact id

omit [DecidableEq P] in
theorem Inv.pendOn (hi : Inv home B) (core : CoreId)
    (hother : ∀ c, c ≠ core → B.Due c → B'.Due c) (howed : B'.owed = (B.pendOn home core).owed) :
    Inv home B' := by
  intro p hp
  rw [howed] at hp
  change (if (home p).other = core then false else B.owed p) = true at hp
  split at hp
  · cases hp
  · rename_i hne
    exact hother _ hne (hi p hp)

omit [DecidableEq P] in
theorem Inv.handle (hi : Inv home B) {core : CoreId} (h : B.handle home core = some B') : Inv home B' := by
  unfold Bells.handle at h
  -- while the handler runs on, all that was due stays so
  have hkeep : ∀ (B₁ : Bells P), B₁.owed = B.owed → B₁.handler core ≠ .out →
      (∀ c, c ≠ core → B₁.fifo c = B.fifo c ∧ B₁.handler c = B.handler c) → Inv home B₁ := by
    intro B₁ howed hin hother p hp
    rw [howed] at hp
    by_cases hcore : (home p).other = core
    · rw [hcore]
      exact Or.inr hin
    · obtain ⟨hfifo, hhandler⟩ := hother _ hcore
      apply (hi p hp).of_le (le_of_eq hfifo.symm)
      rw [hhandler]
      exact id
  cases hplace : B.handler core with
  | out =>
      rw [hplace] at h
      cases h
  | look =>
      rw [hplace] at h
      cases h
      refine hkeep _ (by rfl) ?_ ?_
      · show Function.update B.handler core _ core ≠ _
        rw [Function.update_self]
        split <;> exact HandlerPlace.noConfusion
      · intro c hc
        exact ⟨rfl, Function.update_of_ne hc _ _⟩
  | load =>
      rw [hplace] at h
      cases h
      refine hkeep _ (by rfl) ?_ ?_
      · show Function.update B.handler core _ core ≠ _
        rw [Function.update_self]
        exact HandlerPlace.noConfusion
      · intro c hc
        exact ⟨Function.update_of_ne hc _ _, Function.update_of_ne hc _ _⟩
  | clear =>
      rw [hplace] at h
      cases h
      refine hkeep _ (by rfl) ?_ ?_
      · show Function.update B.handler core _ core ≠ _
        rw [Function.update_self]
        exact HandlerPlace.noConfusion
      · intro c hc
        exact ⟨rfl, Function.update_of_ne hc _ _⟩
  | pend =>
      rw [hplace] at h
      cases h
      refine hi.pendOn core ?_ (by rfl)
      intro c hc hdue
      refine hdue.of_le (Nat.le_refl (B.fifo c)) ?_
      show B.handler c ≠ .out → Function.update B.handler core _ c ≠ .out
      rw [Function.update_of_ne hc]
      exact id

theorem Inv.next {act : Act P} (hi : Inv home B) (h : B.next home act = some B') : Inv home B' := by
  cases act with
  | send p core =>
      unfold Bells.next at h
      dsimp only at h
      split at h
      · split at h
        · cases h
          exact hi.pendOn core (fun _ _ hdue => hdue) rfl
        · cases h
          exact fun q hq => hi q hq
      · cases h
  | check p =>
      unfold Bells.next at h
      dsimp only at h
      split at h
      · split at h
        · cases h
          exact fun q hq => hi q hq
        · rename_i hfull
          cases h
          have hword : 0 < B.fifo (home p).other := by
            unfold capacity at hfull
            omega
          exact hi.sent hword (fun _ => le_refl _) rfl rfl
      · cases h
  | write p =>
      unfold Bells.next at h
      dsimp only at h
      split at h
      · split at h
        · cases h
          refine hi.sent (p := p) ?_ ?_ (by rfl) (by rfl)
          · show 0 < Function.update B.fifo (home p).other _ (home p).other
            rw [Function.update_self]
            omega
          · intro core
            show B.fifo core ≤ Function.update B.fifo (home p).other _ core
            by_cases hcore : core = (home p).other
            · rw [hcore, Function.update_self]
              omega
            · rw [Function.update_of_ne hcore]
        · rename_i hfull
          cases h
          have hword : 0 < B.fifo (home p).other := by
            unfold capacity at hfull
            omega
          exact hi.sent hword (fun _ => le_refl _) rfl rfl
      · cases h
  | enter core =>
      unfold Bells.next at h
      dsimp only at h
      split at h
      · cases h
        intro p hp
        refine (hi p hp).of_le (Nat.le_refl (B.fifo _)) ?_
        intro hin
        show Function.update B.handler core _ (home p).other ≠ .out
        by_cases hcore : (home p).other = core
        · rw [hcore, Function.update_self]
          exact HandlerPlace.noConfusion
        · rw [Function.update_of_ne hcore]
          exact hin
      · cases h
  | handle core => exact hi.handle h

/-! ### The handler gets there -/

/-- The steps the handler has left, when nobody writes meanwhile. -/
def left (B : Bells P) (core : CoreId) : ℕ :=
  match B.handler core with
  | .out => 0
  | .look => 2 * B.fifo core + 3
  | .load => 2 * (B.fifo core - 1) + 4
  | .clear => 2
  | .pend => 1

/-- The core has pended a reschedule, once, and nobody is owed one on it. -/
def Served (home : P → CoreId) (B B' : Bells P) (core : CoreId) : Prop :=
  B'.pends core = B.pends core + 1 ∧ ∀ p, (home p).other = core → B'.owed p = false

omit [DecidableEq P] in
theorem handle_left (home : P → CoreId) {core : CoreId} (hin : B.handler core ≠ .out) :
    ∃ B₁, B.handle home core = some B₁ ∧
      (B₁.handler core ≠ .out ∧ B₁.left core < B.left core ∧ B₁.pends = B.pends ∨ Served home B B₁ core) := by
  unfold handle left
  cases hplace : B.handler core with
  | out => exact absurd hplace hin
  | look =>
      refine ⟨_, rfl, Or.inl ⟨?_, ?_, rfl⟩⟩
      · show Function.update B.handler core _ core ≠ _
        rw [Function.update_self]
        split <;> exact HandlerPlace.noConfusion
      · dsimp only [setHandler]
        rw [Function.update_self]
        by_cases hpos : 0 < B.fifo core
        · rw [if_pos hpos]
          dsimp only
          omega
        · rw [if_neg hpos]
          dsimp only
          omega
  | load =>
      refine ⟨_, rfl, Or.inl ⟨?_, ?_, rfl⟩⟩
      · show Function.update B.handler core _ core ≠ _
        rw [Function.update_self]
        exact HandlerPlace.noConfusion
      · dsimp only [setHandler]
        rw [Function.update_self, Function.update_self]
        dsimp only
        omega
  | clear =>
      refine ⟨_, rfl, Or.inl ⟨?_, ?_, rfl⟩⟩
      · show Function.update B.handler core _ core ≠ _
        rw [Function.update_self]
        exact HandlerPlace.noConfusion
      · dsimp only [setHandler]
        rw [Function.update_self]
        dsimp only
        omega
  | pend =>
      refine ⟨_, rfl, Or.inr ⟨Function.update_self .., ?_⟩⟩
      intro p hp
      exact if_pos hp

/-- The handler's own steps reach its pend. -/
theorem handler_pends (home : P → CoreId) {core : CoreId} (hin : B.handler core ≠ .out) :
    ∃ n B', run (next home) B (List.replicate n (.handle core)) = some B' ∧ Served home B B' core := by
  induction hleft : B.left core using Nat.strong_induction_on generalizing B with
  | _ m ih =>
      obtain ⟨B₁, hstep, ⟨hin₁, hlt, hpends⟩ | hserved⟩ := handle_left home hin
      · obtain ⟨n, B', hrun, hserved⟩ := ih _ (hleft ▸ hlt) hin₁ rfl
        refine ⟨n + 1, B', ?_, ?_, hserved.2⟩
        · rw [List.replicate_succ, run_cons]
          show (B.handle home core).bind _ = _
          rw [hstep]
          exact hrun
        · rw [hserved.1, hpends]
      · refine ⟨1, B₁, ?_, hserved⟩
        show (B.handle home core).bind _ = _
        rw [hstep]
        rfl

/-- **No request is lost.**  For every number of threads and interrupts that send, in every interleaving
of their accesses with the handlers' and whatever the launch left in the FIFOs: while a send has made its
last access, a check that found the FIFO full or a write, and no reschedule has been pended on the other core
since, that core's line is raised or its handler is on its way to the pend, and the handler's own steps lead
there. -/
theorem doorbell_keeps_requests {fifo : CoreId → ℕ} {sticky : CoreId → Bool} {acts : List (Act P)}
    {B : Bells P} (h : run (next home) (boot fifo sticky) acts = some B) (p : P) (howed : B.owed p = true) :
    (B.line (home p).other = true ∨ B.handler (home p).other ≠ .out) ∧
      ∃ (steps : List (Act P)) (B' : Bells P),
        (∀ act ∈ steps, act = .enter (home p).other ∨ act = .handle (home p).other) ∧
        run (next home) B steps = some B' ∧ B'.pends (home p).other = B.pends (home p).other + 1 ∧
        B'.owed p = false := by
  have hB : Inv home B :=
    run_invariant (fun _ _ _ hs hn => hs.next hn) (fun p hp => absurd hp Bool.false_ne_true) h
  by_cases hout : B.handler (home p).other = .out
  · have hline : B.line (home p).other = true := by
      rcases hB p howed with hpos | hin
      · unfold line
        rw [decide_eq_true hpos, Bool.true_or]
      · exact absurd hout hin
    have henter : B.next home (.enter (home p).other) = some (B.setHandler (home p).other .look) :=
      if_pos ⟨hout, hline⟩
    have hin : (B.setHandler (home p).other .look).handler (home p).other ≠ .out := by
      show Function.update B.handler (home p).other _ (home p).other ≠ _
      rw [Function.update_self]
      exact HandlerPlace.noConfusion
    obtain ⟨n, B', hrun, hpends, hserved⟩ := handler_pends home hin
    refine ⟨Or.inl hline, .enter (home p).other :: List.replicate n (.handle (home p).other), B', ?_, ?_,
      hpends, hserved p rfl⟩
    · intro act hact
      rcases List.mem_cons.1 hact with hact | hact
      · exact Or.inl hact
      · exact Or.inr (List.eq_of_mem_replicate hact)
    · rw [run_cons, henter]
      exact hrun
  · obtain ⟨n, B', hrun, hpends, hserved⟩ := handler_pends home hout
    exact ⟨Or.inr hout, List.replicate n (.handle (home p).other), B',
      fun act hact => Or.inr (List.eq_of_mem_replicate hact), hrun, hpends, hserved p rfl⟩

/-- Core 0's thread finds the FIFO full while core 1 is in the middle of draining it. -/
theorem doorbell_keeps_requests_full :
    ∃ B : Bells Unit, run (next fun _ => .zero) (boot (fun _ => capacity) fun _ => false)
        [.enter .one, .handle .one, .send () .one, .check ()] = some B ∧
      (B.line .one = true ∨ B.handler .one ≠ .out) ∧
      ∃ (steps : List (Act Unit)) (B' : Bells Unit),
        (∀ act ∈ steps, act = .enter .one ∨ act = .handle .one) ∧
        run (next fun _ => .zero) B steps = some B' ∧ B'.pends .one = B.pends .one + 1 ∧
        B'.owed () = false := by
  obtain ⟨B, hB, howed⟩ := Option.map_eq_some_iff.1
    (show (run (next fun _ => .zero) (boot (fun _ => capacity) fun _ => false)
        [.enter .one, .handle .one, .send () .one, .check ()]).map (fun B : Bells Unit => B.owed ()) =
      some true by decide +kernel)
  exact ⟨B, hB, doorbell_keeps_requests hB () howed⟩

end Bells

end Cyros.Port.Rp2040Doorbell
