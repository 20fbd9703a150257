import Mathlib.Data.Fintype.Basic
import Cyros.Kernel.IntakeService

/-!
# The start of a core of the Linux preemptive port

One core and everything the others can do to it.  Its IPI is the reschedule signal: a poster that finds
`started` clear drops it, any other says that it asks (`ipi_asked`) and raises the signal.  The core waits for
`started`, picks its first thread without a look at the intake (`scheduler::start`), raises the signal against
itself and leaves the dormant region: the first delivery enters the first thread, and every later one takes
`ipi_asked`, carries out an owed switch, and calls the kernel if there was none or somebody asked.

* `Prompted` says that a reschedule of the core is pending, being delivered or about to be sent.
* `quietStart`: what a post made before the first thread must not have met for that.
* `Inv.next`: in a core with a quiet start every post is followed by a prompt from the first thread on.
-/

namespace Cyros.Port

open Cyros.Lib Cyros.Kernel

/-- Where a core stands in its start. -/
inductive LinuxPhase where
  /-- Before it has seen `started`. -/
  | spawned
  /-- In the kernel's entry. -/
  | entered
  /-- Past `start_first`: the signal is raised, the first thread is chosen. -/
  | bootstrapping
  | running
  deriving DecidableEq, Repr

/-- Where a poster stands in `cyros_port_send_reschedule_ipi`. -/
inductive SendPlace where
  | idle
  /-- It found the core started. -/
  | looked
  /-- It has stored `ipi_asked`. -/
  | asked
  deriving DecidableEq, Repr

structure LinuxCore (N R P : Type) where
  intake : Intake N R P
  service : Service
  phase : LinuxPhase
  started : Bool
  /-- The reschedule signal is pending. -/
  signal : Bool
  ipiAsked : Bool
  /-- `owed_to` is set. -/
  owed : Bool
  owedReschedule : Bool
  /-- In `on_reschedule`, before `ipi_asked` is taken. -/
  handler : Bool
  send : P → SendPlace
  /-- The first thread is the idle thread, the core has not switched since, and its look at the intake is to
  come. -/
  idleLooks : Bool

inductive LinuxAct (N R P : Type) where
  | post (act : IntakeAct N R P)
  /-- A poster that has no IPI to send returns. -/
  | back (p : P)
  | sendLook (p : P)
  | sendAsk (p : P)
  | sendKill (p : P)
  /-- The spawning thread stores `started`. -/
  | publish
  | enter
  /-- `scheduler::start` and `start_first`, with the idle thread or another. -/
  | startFirst (idle : Bool)
  /-- The first delivery. -/
  | bootstrap
  | deliver
  | takeAsked
  | serve
  /-- The drain is over.  A decision may owe a switch. -/
  | settle (switch : Bool)
  | decide
  /-- `cyros_port_pend_reschedule` -/
  | pend
  /-- The look of `idle_task`. -/
  | idleLook

namespace LinuxCore

variable {N R P : Type} [DecidableEq N] [DecidableEq R] [DecidableEq P]

def setSend (C : LinuxCore N R P) (p : P) (place : SendPlace) : LinuxCore N R P :=
  { C with send := Function.update C.send p place }

def posterStep (C : LinuxCore N R P) : LinuxAct N R P → Option (LinuxCore N R P)
  | .post act => if act.posts then (C.intake.step act).map fun s => { C with intake := s } else none
  | .back p =>
      if C.intake.posters p = .linked false then (C.intake.step (.ring p)).map fun s => { C with intake := s }
      else none
  | .sendLook p =>
      if C.intake.posters p = .linked true ∧ C.send p = .idle then
        -- the IPI to a core that is not brought up is dropped
        if C.started then some (C.setSend p .looked)
        else (C.intake.step (.ring p)).map fun s => { C with intake := s }
      else none
  | .sendAsk p => if C.send p = .looked then some { C.setSend p .asked with ipiAsked := true } else none
  | .sendKill p =>
      if C.send p = .asked then
        (C.intake.step (.ring p)).map fun s => { C.setSend p .idle with intake := s, signal := true }
      else none
  | _ => none

def startStep (C : LinuxCore N R P) : LinuxAct N R P → Option (LinuxCore N R P)
  | .publish => some { C with started := true }
  | .enter => if C.phase = .spawned ∧ C.started then some { C with phase := .entered } else none
  | .startFirst idle =>
      if C.phase = .entered then
        some { C with phase := .bootstrapping, signal := true, idleLooks := idle }
      else none
  | .bootstrap =>
      if C.phase = .bootstrapping ∧ C.signal then some { C with phase := .running, signal := false } else none
  | _ => none

/-- The core at work. -/
def coreStep (C : LinuxCore N R P) : LinuxAct N R P → Option (LinuxCore N R P)
  | .deliver =>
      if C.signal ∧ C.service = .none ∧ C.handler = false then some { C with signal := false, handler := true }
      else none
  | .takeAsked =>
      if C.handler then
        -- an owed switch is made without the kernel unless somebody asked
        if C.owed ∧ C.owedReschedule = false ∧ C.ipiAsked = false then
          some { C with handler := false, owed := false }
        else some { C with
          handler := false
          ipiAsked := false
          owed := false
          owedReschedule := C.owedReschedule && !C.owed
          service := .looking .handler
          idleLooks := false }
      else none
  | .serve => (C.intake.serve C.service).map fun x => { C with intake := x.1, service := x.2 }
  | .settle switch => match C.service, C.intake.drain with
    | .draining .handler, .idle => some { C with service := .none }
    | .draining .decision, .idle => some { C with
        service := .none
        owed := C.owed || switch
        signal := C.signal || switch }
    | _, _ => none
  | .decide =>
      if C.service = .none ∧ C.handler = false then
        some { C with service := .looking .decision, idleLooks := false }
      else none
  | .pend => some { C with signal := true, owedReschedule := C.owedReschedule || C.owed }
  | .idleLook =>
      if C.idleLooks ∧ C.service = .none ∧ C.handler = false then
        some { C with
          idleLooks := false
          service := if C.intake.head = none then .none else .looking .decision }
      else none
  | _ => none

def next (C : LinuxCore N R P) (act : LinuxAct N R P) : Option (LinuxCore N R P) :=
  match act with
  | .post _ | .back _ | .sendLook _ | .sendAsk _ | .sendKill _ => C.posterStep act
  | .publish | .enter | .startFirst _ | .bootstrap => C.startStep act
  | .deliver | .takeAsked | .serve | .settle _ | .decide | .pend | .idleLook =>
      if C.phase = .running then C.coreStep act else none

/-- Core 0 is started from the beginning, a spawned core is not. -/
def boot (started : Bool) : LinuxCore N R P where
  intake := Intake.empty
  service := .none
  phase := .spawned
  started := started
  signal := false
  ipiAsked := false
  owed := false
  owedReschedule := false
  handler := false
  send := fun _ => .idle
  idleLooks := false

/-- **A reschedule of the core is pending, being delivered or about to be sent.** -/
def Prompted (C : LinuxCore N R P) : Prop :=
  (C.signal = true ∧ C.ipiAsked = true) ∨ (C.handler = true ∧ C.ipiAsked = true) ∨ C.service.ahead = true ∨
    C.idleLooks = true ∨ ∃ p, C.intake.Ringing p

/-- No post has been rung for when the core enters its first thread, or that is the idle thread, which
looks. -/
def quietStart (C : LinuxCore N R P) : LinuxAct N R P → Prop
  | .bootstrap => C.idleLooks = true ∨ C.intake.head = none ∨ ∃ p, C.intake.Ringing p
  | _ => True

instance [Fintype P] (C : LinuxCore N R P) (act : LinuxAct N R P) : Decidable (C.quietStart act) :=
  match act with
  | .bootstrap =>
      inferInstanceAs (Decidable (C.idleLooks = true ∨ C.intake.head = none ∨ ∃ p, C.intake.Ringing p))
  | .post _ | .back _ | .sendLook _ | .sendAsk _ | .sendKill _ | .publish | .enter | .startFirst _ | .deliver
  | .takeAsked | .serve | .settle _ | .decide | .pend | .idleLook => isTrue trivial

/-! ### The invariant -/

/-- The poster has an IPI to send and has not asked. -/
def Unasked (C : LinuxCore N R P) (p : P) : Prop := C.intake.Ringing p ∧ C.send p ≠ .asked

/-- The core has been asked, and the signal is raised, being delivered or about to be raised. -/
def Asked (C : LinuxCore N R P) : Prop :=
  C.ipiAsked = true ∧ (C.signal = true ∨ C.handler = true ∨ ∃ p, C.send p = .asked)

structure Inv (C : LinuxCore N R P) : Prop where
  send : ∀ p, C.send p ≠ .idle → C.intake.posters p = .linked true
  started : C.phase ≠ .spawned → C.started = true
  /-- Before the first thread nobody takes what was asked. -/
  asked : C.phase ≠ .running → ∀ p, C.send p = .asked → C.ipiAsked = true
  prompted : C.phase = .running → C.intake.head ≠ none →
    (∃ p, C.Unasked p) ∨ C.Asked ∨ C.service.ahead = true ∨ C.idleLooks = true

variable {C C' : LinuxCore N R P}

omit [DecidableEq N] [DecidableEq R] [DecidableEq P] in
theorem Inv.toPrompted (hi : Inv C) (hphase : C.phase = .running) (hhead : C.intake.head ≠ none) :
    C.Prompted := by
  rcases hi.prompted hphase hhead with ⟨p, hring, -⟩ | ⟨hask, hsig | hhandler | ⟨p, hp⟩⟩ | hahead | hidle
  · exact Or.inr (Or.inr (Or.inr (Or.inr ⟨p, hring⟩)))
  · exact Or.inl ⟨hsig, hask⟩
  · exact Or.inr (Or.inl ⟨hhandler, hask⟩)
  · refine Or.inr (Or.inr (Or.inr (Or.inr ⟨p, Or.inr (hi.send p ?_)⟩)))
    rw [hp]
    nofun
  · exact Or.inr (Or.inr (Or.inl hahead))
  · exact Or.inr (Or.inr (Or.inr (Or.inl hidle)))

omit [DecidableEq N] [DecidableEq R] [DecidableEq P] in
theorem Inv.post (hi : Inv C) {s : Intake N R P} (h : Intake.Posted C.intake s) :
    Inv { C with intake := s } where
  send := fun p hp => h.linked p _ (hi.send p hp)
  started := hi.started
  asked := hi.asked
  prompted := fun hphase hhead => by
    by_cases hold : C.intake.head = none
    · obtain ⟨p, hring, hnot⟩ := h.first hold hhead
      refine Or.inl ⟨p, hring, fun hp => ?_⟩
      exact hnot true (h.linked p _ (hi.send p (by rw [show C.send p = .asked from hp]; nofun)))
    · rcases hi.prompted hphase hold with ⟨p, hring, hask⟩ | hrest
      · exact Or.inl ⟨p, h.ringing p hring, hask⟩
      · exact Or.inr hrest

/-- A poster returns that has asked, or had nothing to ask for. -/
theorem Inv.returns (hi : Inv C) {s : Intake N R P} {p : P} (signal : Bool)
    (h : C.intake.step (.ring p) = some s) (hsignal : C.signal = true → signal = true)
    (hp : C.intake.posters p = .linked false ∨ C.send p = .asked ∧ signal = true ∨ C.phase ≠ .running) :
    Inv { C.setSend p .idle with intake := s, signal := signal } := by
  obtain ⟨first, hplace, hhead, hposters⟩ := Intake.ring_spec h
  have hidle : ∀ q, (C.setSend p .idle).send q = if q = p then .idle else C.send q :=
    fun q => Function.update_apply ..
  have hsend := hi.send
  refine ⟨fun q hq => ?_, hi.started, fun hphase q hq => ?_, fun hphase hne => ?_⟩
  · have hqp : q ≠ p := fun hqp => hq ((hidle q).trans (if_pos hqp))
    exact (congrFun hposters q).trans (by grind)
  · exact hi.asked hphase q (by grind)
  · rcases hi.prompted hphase (hhead ▸ hne) with ⟨q, hring, hask⟩ | ⟨hask, hwhere⟩ | hrest
    · -- the poster that returns is not the one that has yet to ask
      have hqp : q ≠ p := by
        rintro rfl
        rcases hp with hp | ⟨hp, -⟩ | hp
        · rcases hring with ⟨t, ht⟩ | ht <;> rw [hp] at ht <;> cases ht
        · exact hask hp
        · exact hp hphase
      refine Or.inl ⟨q, Intake.ringing_of_ring hposters hring hqp, fun hq => hask ?_⟩
      exact (if_neg hqp ▸ hidle q).symm.trans hq
    · refine Or.inr (Or.inl ⟨hask, ?_⟩)
      rcases hwhere with hsig | hhandler | ⟨q, hq⟩
      · exact Or.inl (hsignal hsig)
      · exact Or.inr (Or.inl hhandler)
      · have hrunning : C.phase = .running := hphase
        by_cases hqp : q = p
        · exact Or.inl (by grind)
        · exact Or.inr (Or.inr ⟨q, (hidle q).trans ((if_neg hqp).trans hq)⟩)
    · exact Or.inr (Or.inr hrest)

omit [DecidableEq N] [DecidableEq R] in
/-- A poster moves on that has an IPI to send. -/
theorem Inv.sends (hi : Inv C) {p : P} (hp : C.intake.posters p = .linked true) {place : SendPlace} (q : P)
    (hq : (C.setSend p place).send q ≠ .idle) : C.intake.posters q = .linked true := by
  by_cases hqp : q = p
  · rwa [hqp]
  · exact hi.send q (by simpa [LinuxCore.setSend, hqp] using hq)

theorem Inv.posterStep (hi : Inv C) {act : LinuxAct N R P} (h : C.posterStep act = some C') : Inv C' := by
  cases act with
  | post act =>
    obtain ⟨hact, hmap⟩ := Option.ite_none_right_eq_some.1 h
    obtain ⟨s, hs, rfl⟩ := Option.map_eq_some_iff.mp hmap
    exact hi.post (Intake.posted_of_step hact hs)
  | back p =>
    obtain ⟨hp, hmap⟩ := Option.ite_none_right_eq_some.1 h
    obtain ⟨s, hs, rfl⟩ := Option.map_eq_some_iff.mp hmap
    have hidle : C.send p = .idle := by
      by_contra hne
      simp [hi.send p hne] at hp
    have hinv := hi.returns C.signal hs id (Or.inl hp)
    rwa [LinuxCore.setSend, ← hidle, Function.update_eq_self] at hinv
  | sendLook p =>
    obtain ⟨⟨hlinked, hidle⟩, hlook⟩ := Option.ite_none_right_eq_some.1 h
    split at hlook
    · cases hlook
      have hasked : ∀ q, (C.setSend p .looked).send q = .asked ↔ C.send q = .asked := by
        intro q
        by_cases hqp : q = p <;> simp [LinuxCore.setSend, hqp, hidle]
      refine ⟨hi.sends hlinked, hi.started, fun hphase q hq => hi.asked hphase q ((hasked q).1 hq),
        fun hphase hne => ?_⟩
      simp only [Unasked, Asked, ne_eq, hasked]
      exact hi.prompted hphase hne
    · next hstarted =>
      -- a core that is not started is not running
      obtain ⟨s, hs, rfl⟩ := Option.map_eq_some_iff.mp hlook
      have hphase : C.phase ≠ .running := fun hphase => hstarted (hi.started (by simp [hphase]))
      have hinv := hi.returns C.signal hs id (Or.inr (Or.inr hphase))
      rwa [LinuxCore.setSend, ← hidle, Function.update_eq_self] at hinv
  | sendAsk p =>
    obtain ⟨hp, rfl⟩ := of_guard h
    refine ⟨hi.sends (hi.send p (by simp [hp])), hi.started, fun _ _ _ => rfl, fun _ _ => ?_⟩
    exact Or.inr (Or.inl ⟨rfl, Or.inr (Or.inr ⟨p, Function.update_self ..⟩)⟩)
  | sendKill p =>
    obtain ⟨hp, hmap⟩ := Option.ite_none_right_eq_some.1 h
    obtain ⟨s, hs, rfl⟩ := Option.map_eq_some_iff.mp hmap
    exact hi.returns true hs (fun _ => rfl) (Or.inr (Or.inl ⟨hp, rfl⟩))
  | _ => cases h

omit [DecidableEq N] [DecidableEq R] [DecidableEq P] in
theorem Inv.startStep (hi : Inv C) {act : LinuxAct N R P} (h : C.startStep act = some C')
    (hok : C.quietStart act) : Inv C' := by
  cases act with
  | publish =>
      cases h
      exact ⟨hi.send, fun _ => rfl, hi.asked, hi.prompted⟩
  | enter =>
    obtain ⟨hp, rfl⟩ := of_guard h
    exact ⟨hi.send, fun _ => hp.2, fun _ => hi.asked (by simp [hp.1]), by rintro ⟨⟩⟩
  | startFirst idle =>
    obtain ⟨hp, rfl⟩ := of_guard h
    exact ⟨hi.send, fun _ => hi.started (by simp [hp]), fun _ => hi.asked (by simp [hp]), by rintro ⟨⟩⟩
  | bootstrap =>
    obtain ⟨⟨hp, -⟩, rfl⟩ := of_guard h
    refine ⟨hi.send, fun _ => hi.started (by simp [hp]), fun hne => absurd rfl hne, fun _ hhead => ?_⟩
    rcases hok with hidle | hnone | ⟨p, hring⟩
    · exact Or.inr (Or.inr (Or.inr hidle))
    · exact absurd hnone hhead
    · by_cases hask : C.send p = .asked
      · exact Or.inr (Or.inl ⟨hi.asked (by simp [hp]) p hask, Or.inr (Or.inr ⟨p, hask⟩)⟩)
      · exact Or.inl ⟨p, hring, hask⟩
  | _ => cases h

omit [DecidableEq N] [DecidableEq R] [DecidableEq P] in
/-- A step that leaves the posters alone and takes no prompt away. -/
theorem Inv.of_core (hi : Inv C) (hphase : C.phase = .running) (hsame : C'.phase = C.phase)
    (hstarted : C'.started = C.started) (hsend : C'.send = C.send)
    (hposters : C'.intake.posters = C.intake.posters)
    (hprompted : C'.intake.head ≠ none → C'.service.ahead = true ∨
      C.intake.head ≠ none ∧ (C.Asked → C'.Asked) ∧ (C.service.ahead = true → C'.service.ahead = true) ∧
        (C.idleLooks = true → C'.idleLooks = true)) : Inv C' where
  send := fun p hp => by
    rw [hposters]
    exact hi.send p (hsend ▸ hp)
  started := fun h => by
    rw [hstarted]
    exact hi.started (hsame ▸ h)
  asked := fun h => absurd (hsame.trans hphase) h
  prompted := fun _ hhead => by
    rcases hprompted hhead with hahead | ⟨hold, hasked, hahead, hidle⟩
    · exact Or.inr (Or.inr (Or.inl hahead))
    · rcases hi.prompted hphase hold with ⟨p, hring, hask⟩ | h | h | h
      · refine Or.inl ⟨p, ?_, hsend ▸ hask⟩
        unfold Intake.Ringing at *
        rwa [hposters]
      · exact Or.inr (Or.inl (hasked h))
      · exact Or.inr (Or.inr (Or.inl (hahead h)))
      · exact Or.inr (Or.inr (Or.inr (hidle h)))

theorem Inv.coreStep (hi : Inv C) (hphase : C.phase = .running) {act : LinuxAct N R P}
    (h : C.coreStep act = some C') : Inv C' := by
  cases act with
  | deliver =>
    obtain ⟨-, rfl⟩ := of_guard h
    refine hi.of_core hphase rfl rfl rfl rfl fun hhead => Or.inr ⟨hhead, fun hask => ?_, id, id⟩
    exact ⟨hask.1, Or.inr (Or.inl rfl)⟩
  | takeAsked =>
    obtain ⟨-, htake⟩ := Option.ite_none_right_eq_some.1 h
    split at htake <;> cases htake
    · next hnobody =>
      refine hi.of_core hphase rfl rfl rfl rfl fun hhead => Or.inr ⟨hhead, fun hask => ?_, id, id⟩
      simp [hask.1] at hnobody
    · exact hi.of_core hphase rfl rfl rfl rfl fun _ => Or.inl rfl
  | serve =>
    obtain ⟨⟨s, service⟩, hserve, rfl⟩ := Option.map_eq_some_iff.mp h
    obtain ⟨hposters, -, hcases⟩ := Intake.serve_spec hserve
    refine hi.of_core hphase rfl rfl rfl hposters fun hhead => ?_
    rcases hcases with hnone | ⟨hahead, -⟩ | ⟨hold, -, hsame⟩
    · exact absurd hnone hhead
    · exact Or.inl hahead
    · exact Or.inr ⟨fun hnone => hhead (hsame.trans hnone), id, fun hahead => by simp [hold] at hahead, id⟩
  | settle switch =>
    simp only [LinuxCore.coreStep] at h
    split at h <;> cases h
    all_goals
      next hservice _ =>
      refine hi.of_core hphase rfl rfl rfl rfl fun hhead => Or.inr ⟨hhead, fun hask => ?_, fun hahead => ?_, id⟩
      · exact ⟨hask.1, hask.2.imp_left fun hsig => by simp [hsig]⟩
      · simp [hservice, Service.ahead] at hahead
  | decide =>
    obtain ⟨-, rfl⟩ := of_guard h
    exact hi.of_core hphase rfl rfl rfl rfl fun _ => Or.inl rfl
  | pend =>
    cases h
    exact hi.of_core hphase rfl rfl rfl rfl fun hhead =>
      Or.inr ⟨hhead, fun hask => ⟨hask.1, Or.inl rfl⟩, id, id⟩
  | idleLook =>
    obtain ⟨-, rfl⟩ := of_guard h
    refine hi.of_core hphase rfl rfl rfl rfl fun hhead => Or.inl ?_
    simp [if_neg hhead, Service.ahead]
  | _ => cases h

/-- **One step keeps the invariant**, if the start is quiet. -/
theorem Inv.next (hi : Inv C) {act : LinuxAct N R P} (hok : C.quietStart act) (h : C.next act = some C') :
    Inv C' := by
  cases act with
  | post | back | sendLook | sendAsk | sendKill =>
      simp only [LinuxCore.next] at h
      exact hi.posterStep h
  | publish | enter | startFirst | bootstrap =>
      simp only [LinuxCore.next] at h
      exact hi.startStep h hok
  | deliver | takeAsked | serve | settle | decide | pend | idleLook =>
      simp only [LinuxCore.next] at h
      split at h
      · next hphase => exact hi.coreStep hphase h
      · cases h

omit [DecidableEq N] [DecidableEq R] [DecidableEq P] in
theorem inv_boot (started : Bool) : Inv (boot started : LinuxCore N R P) where
  send := fun _ h => absurd rfl h
  started := fun h => absurd rfl h
  asked := nofun
  prompted := nofun

end LinuxCore

end Cyros.Port
