import Mathlib.Data.Fintype.Basic
import Mathlib.Tactic.MkIffOfInductiveProp
import Cyros.Kernel.IntakeService

/-!
# The start of a core of the RP2350 port

One Cortex-M33 core and everything the other can do to it.  Its IPI is a doorbell, which the other core rings at
any time.  The core initialises itself with interrupts masked, clears its doorbell and enables the interrupt,
picks its first thread without a look at the intake (`scheduler::start`) and unmasks as it enters it.  The
doorbell's handler clears it and pends PendSV, saying that it asks where a switch is owed; PendSV carries out an
owed switch and calls the kernel if there was none or somebody asked.

* A decision takes the intake in with interrupts masked and then owes its switch, so what is posted in between
  has its doorbell set (`Inv.masked`).
* `Inv.next`: in a core with a quiet start every post is followed by a prompt from the first thread on.
-/

namespace Cyros.Port

open Cyros.Lib Cyros.Kernel

inductive Rp2350Phase where
  | reset
  /-- Past `init_this_core`, with interrupts masked. -/
  | initialised
  /-- Past `enable_doorbell_on_this_core`. -/
  | belled
  | running
  deriving DecidableEq, Repr

/-- Where `SIO_BELL_Handler` stands. -/
inductive BellPlace where
  | idle
  /-- The doorbell is cleared. -/
  | cleared
  /-- `cyros_port_pend_reschedule` has looked at the owed switch. -/
  | looked
  deriving DecidableEq, Repr

/-- Where `cyros_port_pendsv_dispatch` stands. -/
inductive PendSvPlace where
  | idle
  | entered
  /-- The owed switch is made and cleared. -/
  | switched
  /-- In the kernel's `reschedule`. -/
  | kernel
  deriving DecidableEq, Repr

structure Rp2350Core (N R P : Type) where
  intake : Intake N R P
  service : Service
  phase : Rp2350Phase
  doorbell : Bool
  pendSv : Bool
  /-- `owed.to` is set. -/
  owed : Bool
  owedReschedule : Bool
  bell : BellPlace
  dispatch : PendSvPlace
  /-- The first thread is the idle thread, the core has not switched since, and its look at the intake is to
  come. -/
  idleLooks : Bool

inductive Rp2350Act (N R P : Type) where
  | post (act : IntakeAct N R P)
  /-- A poster that has no IPI to send returns. -/
  | back (p : P)
  /-- `cyros_port_send_reschedule_ipi` from the other core. -/
  | ring (p : P)
  | init
  | enableDoorbell
  /-- `scheduler::start` and `start_first`, with the idle thread or another. -/
  | startFirst (idle : Bool)
  | bellEnter
  | bellLook
  | bellPend
  | takePendSv
  /-- PendSV's look at the owed switch, and the switch. -/
  | dispatchOwed
  /-- PendSV's look at `owed.reschedule`. -/
  | dispatchAsked
  | serve
  /-- The drain is over.  A decision may owe a switch. -/
  | settle (switch : Bool)
  | decide
  /-- `cyros_port_pend_reschedule` by a thread or an interrupt of the core. -/
  | pend
  /-- The look of `idle_task`. -/
  | idleLook

namespace Rp2350Core

variable {N R P : Type} [DecidableEq N] [DecidableEq R] [DecidableEq P]

def posterStep (C : Rp2350Core N R P) : Rp2350Act N R P → Option (Rp2350Core N R P)
  | .post act => if act.posts then (C.intake.step act).map fun s => { C with intake := s } else none
  | .back p =>
      if C.intake.posters p = .linked false then (C.intake.step (.ring p)).map fun s => { C with intake := s }
      else none
  | .ring p =>
      if C.intake.posters p = .linked true then
        (C.intake.step (.ring p)).map fun s => { C with intake := s, doorbell := true }
      else none
  | _ => none

def startStep (C : Rp2350Core N R P) : Rp2350Act N R P → Option (Rp2350Core N R P)
  | .init =>
      if C.phase = .reset then
        some { C with phase := .initialised, pendSv := false, owed := false, owedReschedule := false }
      else none
  | .enableDoorbell =>
      -- a ring left from an earlier life of the kernel is cleared, and any other with it
      if C.phase = .initialised then some { C with phase := .belled, doorbell := false } else none
  | .startFirst idle =>
      if C.phase = .belled then some { C with phase := .running, idleLooks := idle } else none
  | _ => none

/-- The handlers.  They are masked while a decision is made, and the doorbell's runs before PendSV goes on. -/
def handlerStep (C : Rp2350Core N R P) : Rp2350Act N R P → Option (Rp2350Core N R P)
  | .bellEnter =>
      if C.doorbell ∧ C.bell = .idle ∧ C.service.decides = false then
        some { C with doorbell := false, bell := .cleared }
      else none
  | .bellLook =>
      if C.bell = .cleared ∧ C.service.decides = false then
        some { C with bell := .looked, owedReschedule := C.owedReschedule || C.owed }
      else none
  | .bellPend =>
      if C.bell = .looked ∧ C.service.decides = false then some { C with bell := .idle, pendSv := true } else none
  | .takePendSv =>
      if C.pendSv ∧ C.bell = .idle ∧ C.dispatch = .idle ∧ C.service = .none then
        some { C with pendSv := false, dispatch := .entered }
      else none
  | .dispatchOwed =>
      if C.dispatch = .entered ∧ C.bell = .idle then
        some (if C.owed then { C with owed := false, dispatch := .switched }
          else { C with dispatch := .kernel, service := .looking .handler, idleLooks := false })
      else none
  | .dispatchAsked =>
      if C.dispatch = .switched ∧ C.bell = .idle then
        some (if C.owedReschedule then { C with
            owedReschedule := false
            dispatch := .kernel
            service := .looking .handler
            idleLooks := false }
          else { C with dispatch := .idle })
      else none
  | _ => none

/-- The kernel at work. -/
def kernelStep (C : Rp2350Core N R P) : Rp2350Act N R P → Option (Rp2350Core N R P)
  | .serve =>
      if C.service.decides = true ∨ C.bell = .idle then
        (C.intake.serve C.service).map fun x => { C with intake := x.1, service := x.2 }
      else none
  | .settle switch => match C.service, C.intake.drain with
    | .draining .handler, .idle =>
        if C.bell = .idle then some { C with service := .none, dispatch := .idle } else none
    | .draining .decision, .idle => some { C with
        service := .none
        owed := C.owed || switch
        pendSv := C.pendSv || switch }
    | _, _ => none
  | .decide =>
      -- refused while PendSV is active
      if C.service = .none ∧ C.dispatch = .idle then
        some { C with service := .looking .decision, idleLooks := false }
      else none
  | .pend => some { C with pendSv := true, owedReschedule := C.owedReschedule || C.owed }
  | .idleLook =>
      if C.idleLooks ∧ C.service = .none ∧ C.dispatch = .idle then
        some { C with
          idleLooks := false
          service := if C.intake.head = none then .none else .looking .decision }
      else none
  | _ => none

def next (C : Rp2350Core N R P) (act : Rp2350Act N R P) : Option (Rp2350Core N R P) :=
  match act with
  | .post _ | .back _ | .ring _ => C.posterStep act
  | .init | .enableDoorbell | .startFirst _ => C.startStep act
  | .bellEnter | .bellLook | .bellPend | .takePendSv | .dispatchOwed | .dispatchAsked =>
      if C.phase = .running then C.handlerStep act else none
  | .serve | .settle _ | .decide | .pend | .idleLook =>
      if C.phase = .running then C.kernelStep act else none

def boot : Rp2350Core N R P where
  intake := Intake.empty
  service := .none
  phase := .reset
  doorbell := false
  pendSv := false
  owed := false
  owedReschedule := false
  bell := .idle
  dispatch := .idle
  idleLooks := false

/-- A PendSV that is taken now, or has just been, calls the kernel. -/
def Reaches (C : Rp2350Core N R P) : Prop := C.owed = false ∨ C.owedReschedule = true

/-- **A reschedule of the core is pending, being delivered or about to be sent.** -/
@[mk_iff]
inductive Prompted (C : Rp2350Core N R P) : Prop
  | ringing (p : P) (h : C.intake.Ringing p)
  | doorbell (h : C.doorbell = true)
  | cleared (h : C.bell = .cleared)
  | looked (h : C.bell = .looked) (hreach : C.Reaches)
  | pended (h : C.pendSv = true) (hreach : C.Reaches)
  | entered (h : C.dispatch = .entered) (hreach : C.Reaches)
  | asked (h : C.dispatch = .switched) (hask : C.owedReschedule = true)
  | ahead (h : C.service.ahead = true)
  | idle (h : C.idleLooks = true)

/-- No post has been rung for when the core enters its first thread, or the doorbell is still set, or that
thread is the idle thread, which looks. -/
def quietStart (C : Rp2350Core N R P) : Rp2350Act N R P → Prop
  | .startFirst idle =>
      idle = true ∨ C.intake.head = none ∨ C.doorbell = true ∨ ∃ p, C.intake.Ringing p
  | _ => True

instance [Fintype P] (C : Rp2350Core N R P) (act : Rp2350Act N R P) : Decidable (C.quietStart act) :=
  match act with
  | .startFirst idle => inferInstanceAs
      (Decidable (idle = true ∨ C.intake.head = none ∨ C.doorbell = true ∨ ∃ p, C.intake.Ringing p))
  | .post _ | .back _ | .ring _ | .init | .enableDoorbell | .bellEnter | .bellLook | .bellPend | .takePendSv
  | .dispatchOwed | .dispatchAsked | .serve | .settle _ | .decide | .pend | .idleLook => isTrue trivial

/-! ### The invariant -/

structure Inv (C : Rp2350Core N R P) : Prop where
  prompted : C.phase = .running → C.intake.head ≠ none → C.Prompted
  /-- What is posted while a decision is made, past its drain, has its doorbell set. -/
  masked : C.service = .draining .decision → C.intake.head ≠ none →
    C.doorbell = true ∨ ∃ p, C.intake.Ringing p
  /-- A switch is owed before PendSV is active. -/
  active : C.dispatch = .switched ∨ C.dispatch = .kernel → C.owed = false
  service : C.phase ≠ .running → C.service = .none
  deciding : C.service.decides = true → C.dispatch = .idle
  serving : C.service ≠ .none → C.service.decides = true ∨ C.dispatch = .kernel

section

variable {N R P : Type} {C C' : Rp2350Core N R P}

/-- A step of the other core: whoever had something to send still has, or the doorbell is set. -/
theorem Inv.remote (hi : Inv C) {s : Intake N R P} {doorbell : Bool}
    (hbell : C.doorbell = true → doorbell = true)
    (hring : ∀ p, C.intake.Ringing p → doorbell = true ∨ ∃ p, s.Ringing p)
    (hhead : s.head ≠ none → C.intake.head ≠ none ∨ ∃ p, s.Ringing p) :
    Inv { C with intake := s, doorbell := doorbell } where
  prompted := fun hphase hne => by
    rcases hhead hne with hold | ⟨p, hp⟩
    · have hprompted := hi.prompted hphase hold
      rw [prompted_iff] at hprompted ⊢
      grind [Reaches]
    · exact .ringing p hp
  masked := fun hservice hne => by
    rcases hhead hne with hold | hp
    · rcases hi.masked hservice hold with hset | ⟨p, hp⟩
      · exact Or.inl (hbell hset)
      · exact hring p hp
    · exact Or.inr hp
  active := hi.active
  service := hi.service
  deciding := hi.deciding
  serving := hi.serving

theorem Inv.startStep (hi : Inv C) {act : Rp2350Act N R P} (h : C.startStep act = some C')
    (hok : C.quietStart act) : Inv C' := by
  have hidle : C.phase ≠ .running → C.service ≠ .draining .decision := by
    intro hphase hdrain
    rw [hi.service hphase] at hdrain
    cases hdrain
  cases act with
  | init =>
    obtain ⟨hp, rfl⟩ := of_guard h
    have hphase : C.phase ≠ .running := by
      rw [hp]
      nofun
    exact ⟨nofun, fun hdrain => absurd hdrain (hidle hphase), fun _ => rfl, fun _ => hi.service hphase,
      hi.deciding, hi.serving⟩
  | enableDoorbell =>
    obtain ⟨hp, rfl⟩ := of_guard h
    have hphase : C.phase ≠ .running := by
      rw [hp]
      nofun
    exact ⟨nofun, fun hdrain => absurd hdrain (hidle hphase), hi.active, fun _ => hi.service hphase,
      hi.deciding, hi.serving⟩
  | startFirst idle =>
    obtain ⟨-, rfl⟩ := of_guard h
    refine ⟨fun _ hhead => ?_, hi.masked, hi.active, fun hne => absurd rfl hne, hi.deciding, hi.serving⟩
    rcases hok with hidle | hnone | hset | ⟨p, hp⟩
    · exact .idle hidle
    · exact absurd hnone hhead
    · exact .doorbell hset
    · exact .ringing p hp
  | _ => cases h

theorem Inv.handlerStep (hi : Inv C) (hphase : C.phase = .running) {act : Rp2350Act N R P}
    (h : C.handlerStep act = some C') : Inv C' := by
  have hmasked : C.service.decides = false → C.service ≠ .draining .decision := by
    intro hdecides hdrain
    rw [hdrain] at hdecides
    cases hdecides
  have hprompted := hi.prompted hphase
  rw [prompted_iff] at hprompted
  cases act with
  | bellEnter =>
    obtain ⟨hp, rfl⟩ := of_guard h
    exact ⟨fun _ _ => .cleared rfl, fun hdrain => absurd hdrain (hmasked hp.2.2), hi.active,
      hi.service, hi.deciding, hi.serving⟩
  | bellLook =>
    obtain ⟨hp, rfl⟩ := of_guard h
    refine ⟨fun _ _ => .looked rfl ?_, fun hdrain => absurd hdrain (hmasked hp.2), hi.active,
      hi.service, hi.deciding, hi.serving⟩
    show C.owed = false ∨ (C.owedReschedule || C.owed) = true
    cases C.owed <;> simp
  | bellPend =>
    obtain ⟨hp, rfl⟩ := of_guard h
    refine ⟨fun _ _ => ?_, fun hdrain => absurd hdrain (hmasked hp.2), hi.active, hi.service,
      hi.deciding, hi.serving⟩
    -- what was looked at is pended
    grind [prompted_iff, Reaches]
  | takePendSv =>
    obtain ⟨⟨-, hbell, hdispatch, hservice⟩, rfl⟩ := of_guard h
    refine ⟨fun _ _ => ?_, hi.masked, nofun, hi.service, fun hdecides => ?_, fun hne => absurd hservice hne⟩
    · -- what was pended is entered
      grind [prompted_iff, Reaches]
    · rw [show C.service = .none from hservice] at hdecides
      cases hdecides
  | dispatchOwed =>
    obtain ⟨⟨hdispatch, hbell⟩, rfl⟩ := of_guard h
    have hidle : C.service.decides = false := by
      by_contra hne
      have := hi.deciding (by simpa using hne)
      rw [hdispatch] at this
      cases this
    split
    · next howed =>
      refine ⟨fun _ _ => ?_, fun hdrain => absurd hdrain (hmasked hidle), fun _ => rfl, hi.service,
        fun hdecides => ?_, fun hne => ?_⟩
      · -- the switch is made, and who reaches the kernel past it has asked
        grind [prompted_iff, Reaches]
      · rw [show C.service.decides = true from hdecides] at hidle
        cases hidle
      · have := hi.serving hne
        grind
    · next howed =>
      exact ⟨fun _ _ => .ahead rfl, nofun, fun _ => by simpa using howed,
        fun hne => absurd hphase hne, nofun, fun _ => Or.inr rfl⟩
  | dispatchAsked =>
    obtain ⟨⟨hdispatch, hbell⟩, rfl⟩ := of_guard h
    have howed := hi.active (Or.inl hdispatch)
    split
    · exact ⟨fun _ _ => .ahead rfl, nofun, fun _ => howed, fun hne => absurd hphase hne, nofun,
        fun _ => Or.inr rfl⟩
    · refine ⟨fun _ _ => ?_, hi.masked, nofun, hi.service, fun _ => rfl, fun hne => ?_⟩
      · grind [prompted_iff, Reaches]
      · have := hi.serving hne
        grind
  | _ => cases h

end

variable {C C' : Rp2350Core N R P}

theorem Inv.posterStep (hi : Inv C) {act : Rp2350Act N R P} (h : C.posterStep act = some C') : Inv C' := by
  cases act with
  | post act =>
    obtain ⟨hact, hmap⟩ := Option.ite_none_right_eq_some.1 h
    obtain ⟨s, hs, rfl⟩ := Option.map_eq_some_iff.mp hmap
    have hposted := Intake.posted_of_step hact hs
    refine hi.remote id (fun p hp => Or.inr ⟨p, hposted.ringing p hp⟩) fun hne => ?_
    by_cases hold : C.intake.head = none
    · obtain ⟨p, hp, -⟩ := hposted.first hold hne
      exact Or.inr ⟨p, hp⟩
    · exact Or.inl hold
  | back p =>
    obtain ⟨hp, hmap⟩ := Option.ite_none_right_eq_some.1 h
    obtain ⟨s, hs, rfl⟩ := Option.map_eq_some_iff.mp hmap
    obtain ⟨first, -, hhead, hposters⟩ := Intake.ring_spec hs
    refine hi.remote id (fun q hq => Or.inr ⟨q, Intake.ringing_of_ring hposters hq ?_⟩)
      fun hne => Or.inl (hhead ▸ hne)
    rintro rfl
    rcases hq with ⟨t, ht⟩ | ht <;> rw [hp] at ht <;> cases ht
  | ring p =>
    obtain ⟨-, hmap⟩ := Option.ite_none_right_eq_some.1 h
    obtain ⟨s, hs, rfl⟩ := Option.map_eq_some_iff.mp hmap
    obtain ⟨first, -, hhead, -⟩ := Intake.ring_spec hs
    exact hi.remote (fun _ => rfl) (fun _ _ => Or.inl rfl) fun hne => Or.inl (hhead ▸ hne)
  | _ => cases h

theorem Inv.kernelStep (hi : Inv C) (hphase : C.phase = .running) {act : Rp2350Act N R P}
    (h : C.kernelStep act = some C') : Inv C' := by
  have hprompted := hi.prompted hphase
  rw [prompted_iff] at hprompted
  cases act with
  | serve =>
    obtain ⟨-, hmap⟩ := Option.ite_none_right_eq_some.1 h
    obtain ⟨⟨s, service⟩, hserve, rfl⟩ := Option.map_eq_some_iff.mp hmap
    obtain ⟨hposters, hdecides, hcases⟩ := Intake.serve_spec hserve
    have hring : ∀ p, C.intake.Ringing p → s.Ringing p := fun p hp => by
      unfold Intake.Ringing at *
      rwa [hposters]
    refine ⟨fun _ hhead => ?_, fun hdrain hhead => ?_, hi.active, fun hne => absurd hphase hne,
      fun hd => hi.deciding (hdecides ▸ hd), fun _ => ?_⟩
    · rcases hcases with hnone | ⟨hahead, -⟩ | ⟨hold, -, hsame⟩
      · exact absurd hnone hhead
      · exact .ahead hahead
      · have hold' := hprompted (hsame ▸ hhead)
        rw [prompted_iff]
        grind [Reaches]
    · rcases hcases with hnone | ⟨hahead, -⟩ | ⟨hold, -, hsame⟩
      · exact absurd hnone hhead
      · rw [show service = .draining .decision from hdrain] at hahead
        cases hahead
      · have hservice : C.service = .draining .decision := by
          have hd : C.service.decides = true := by
            rw [← hdecides, show service = .draining .decision from hdrain]
            rfl
          revert hd hold
          cases C.service with
          | none => nofun
          | looking => nofun
          | detaching => nofun
          | draining road => cases road <;> simp [Service.decides]
        rcases hi.masked hservice (hsame ▸ hhead) with hset | ⟨p, hp⟩
        · exact Or.inl hset
        · exact Or.inr ⟨p, hring p hp⟩
    · have hbusy : C.service ≠ .none := by
        intro hnone
        rw [hnone] at hserve
        cases hserve
      exact (hi.serving hbusy).imp_left (hdecides.trans ·)
  | settle switch =>
    simp only [Rp2350Core.kernelStep] at h
    split at h
    · next hservice _ =>
      obtain ⟨-, rfl⟩ := of_guard h
      have hkernel : C.dispatch = .kernel :=
        (hi.serving (by rw [hservice]; nofun)).resolve_left (by rw [hservice]; nofun)
      refine ⟨fun _ _ => ?_, nofun, nofun, fun _ => rfl, nofun, fun hne => absurd rfl hne⟩
      grind [prompted_iff, Reaches, Service.ahead]
    · next hservice _ =>
      cases h
      have hdispatch := hi.deciding (by rw [hservice]; rfl)
      refine ⟨fun _ hhead => ?_, nofun, fun hactive => ?_, fun _ => rfl, nofun, fun hne => absurd rfl hne⟩
      · rcases hi.masked hservice hhead with hset | ⟨p, hp⟩
        · exact .doorbell hset
        · exact .ringing p hp
      · rcases hactive with ha | ha <;> rw [show C.dispatch = _ from ha] at hdispatch <;> cases hdispatch
    · cases h
  | decide =>
    obtain ⟨hp, rfl⟩ := of_guard h
    exact ⟨fun _ _ => .ahead rfl, nofun, hi.active, fun hne => absurd hphase hne, fun _ => hp.2,
      fun _ => Or.inl rfl⟩
  | pend =>
    cases h
    refine ⟨fun _ _ => ?_, hi.masked, hi.active, hi.service, hi.deciding, hi.serving⟩
    grind [prompted_iff, Reaches]
  | idleLook =>
    obtain ⟨hp, rfl⟩ := of_guard h
    refine ⟨fun _ hhead => .ahead (by rw [if_neg hhead]; rfl), fun hdrain => ?_, hi.active,
      fun hne => absurd hphase hne, fun _ => hp.2.2, fun hne => ?_⟩
    · split at hdrain <;> cases hdrain
    · split at hne
      · exact absurd rfl hne
      · next hhead =>
        refine Or.inl ?_
        rw [if_neg hhead]
        rfl
  | _ => cases h

/-- **One step keeps the invariant**, if the start is quiet. -/
theorem Inv.next (hi : Inv C) {act : Rp2350Act N R P} (hok : C.quietStart act) (h : C.next act = some C') :
    Inv C' := by
  cases act with
  | post | back | ring =>
    simp only [Rp2350Core.next] at h
    exact hi.posterStep h
  | init | enableDoorbell | startFirst =>
    simp only [Rp2350Core.next] at h
    exact hi.startStep h hok
  | bellEnter | bellLook | bellPend | takePendSv | dispatchOwed | dispatchAsked =>
    obtain ⟨hphase, hstep⟩ := Option.ite_none_right_eq_some.1 h
    exact hi.handlerStep hphase hstep
  | serve | settle | decide | pend | idleLook =>
    obtain ⟨hphase, hstep⟩ := Option.ite_none_right_eq_some.1 h
    exact hi.kernelStep hphase hstep

omit [DecidableEq N] [DecidableEq R] [DecidableEq P] in
theorem inv_boot : Inv (boot : Rp2350Core N R P) where
  prompted := nofun
  masked := nofun
  active := fun _ => rfl
  service := fun _ => rfl
  deciding := nofun
  serving := fun h => absurd rfl h

end Rp2350Core

end Cyros.Port
