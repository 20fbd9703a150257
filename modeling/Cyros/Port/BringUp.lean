import Cyros.Port.LinuxStart
import Cyros.Port.Rp2350Start

/-!
# Posts to a core that is being started

A core enters its first thread without a look at its intake.  What was posted to it before, and rung for before
it could listen, waits there with nobody to tell it, and since the intake is not empty no later post rings
either (`early_post_strands`).  On the Linux port the IPI is dropped or merges with the signal that enters the
first thread; on the RP2350 the doorbell is cleared before it is enabled.

In the runs with a quiet start every post to a running core is followed by a prompt (`no_wake_stranded`).
-/

namespace Cyros.Port

open Cyros.Lib Cyros.Kernel

variable {N R P : Type} [DecidableEq N] [DecidableEq R] [DecidableEq P]

/-- **No wake is stranded by a quiet start.**  On both ports, whatever is posted to a core before, during and
after its start: if the start is quiet, then from its first thread on, whenever its intake is not empty, a
reschedule of the core is pending, being delivered or about to be sent. -/
theorem no_wake_stranded :
    (∀ started acts (C : LinuxCore N R P), Meets LinuxCore.next LinuxCore.quietStart (.boot started) acts →
      run LinuxCore.next (.boot started) acts = some C → C.phase = .running → C.intake.head ≠ none →
        C.Prompted) ∧
    ∀ acts (C : Rp2350Core N R P), Meets Rp2350Core.next Rp2350Core.quietStart .boot acts →
      run Rp2350Core.next .boot acts = some C → C.phase = .running → C.intake.head ≠ none → C.Prompted := by
  constructor
  · intro started acts C hquiet hrun hphase hhead
    have hi : C.Inv := run_invariant_of_meets (I := LinuxCore.Inv) (fun _ _ _ hi hok h => hi.next hok h)
      (LinuxCore.inv_boot started) hquiet hrun
    exact hi.toPrompted hphase hhead
  · intro acts C hquiet hrun hphase hhead
    have hi : C.Inv := run_invariant_of_meets (I := Rp2350Core.Inv) (fun _ _ _ hi hok h => hi.next hok h)
      Rp2350Core.inv_boot hquiet hrun
    exact hi.prompted hphase hhead

/-- Poster `p` posts thread `p`. -/
def posts (p : Fin 2) : List (IntakeAct (Fin 2) Unit (Fin 2)) := [.fetchOr p p (), .mark p, .exchange p, .link p]

/-- The core is started, and then a thread is posted to it. -/
def postedAfter : List (LinuxAct (Fin 2) Unit (Fin 2)) :=
  [.publish, .enter, .startFirst false, .bootstrap] ++ (posts 0).map .post ++
    [.sendLook 0, .sendAsk 0, .sendKill 0]

def rungAfter : List (Rp2350Act (Fin 2) Unit (Fin 2)) :=
  [.init, .enableDoorbell] ++ (posts 0).map .post ++ [.ring 0, .startFirst false]

/-- A post to a running core, and one rung for between the clearing of the doorbell and the first thread. -/
theorem no_wake_stranded_rung :
    (∃ C, run LinuxCore.next (.boot false) postedAfter = some C ∧ C.phase = .running ∧
      C.intake.head = some 0 ∧ C.Prompted) ∧
    ∃ C, run Rp2350Core.next .boot rungAfter = some C ∧ C.phase = .running ∧ C.intake.head = some 0 ∧
      C.Prompted := by
  constructor
  · have hsome : (run LinuxCore.next (.boot false) postedAfter).map (fun C => (C.phase, C.intake.head)) =
        some (.running, some 0) := rfl
    obtain ⟨C, hrun, hview⟩ := Option.map_eq_some_iff.mp hsome
    obtain ⟨hphase, hhead⟩ := Prod.mk.inj hview
    have hprompted := no_wake_stranded.1 false postedAfter C (by decide) hrun hphase (by rw [hhead]; nofun)
    exact ⟨C, hrun, hphase, hhead, hprompted⟩
  · have hsome : (run Rp2350Core.next .boot rungAfter).map (fun C => (C.phase, C.intake.head)) =
        some (.running, some 0) := rfl
    obtain ⟨C, hrun, hview⟩ := Option.map_eq_some_iff.mp hsome
    obtain ⟨hphase, hhead⟩ := Prod.mk.inj hview
    have hprompted := no_wake_stranded.2 rungAfter C (by decide) hrun hphase (by rw [hhead]; nofun)
    exact ⟨C, hrun, hphase, hhead, hprompted⟩

/-! ### Early posts -/

/-- A thread is posted to a core before it is started, which then enters a thread of its own; a second post
finds the intake not empty. -/
def dropped : List (LinuxAct (Fin 2) Unit (Fin 2)) :=
  (posts 0).map .post ++ [.sendLook 0, .publish, .enter, .startFirst false, .bootstrap] ++
    (posts 1).map .post ++ [.back 1]

/-- The signal of the IPI merges with the one that enters the first thread. -/
def merged : List (LinuxAct (Fin 2) Unit (Fin 2)) :=
  [.publish, .enter] ++ (posts 0).map .post ++
    [.sendLook 0, .sendAsk 0, .sendKill 0, .startFirst false, .bootstrap] ++ (posts 1).map .post ++ [.back 1]

/-- The doorbell is rung before the core clears it. -/
def silenced : List (Rp2350Act (Fin 2) Unit (Fin 2)) :=
  (posts 0).map .post ++ [.ring 0, .init, .enableDoorbell, .startFirst false] ++ (posts 1).map .post ++ [.back 1]

theorem linux_unprompted {C : LinuxCore (Fin 2) Unit (Fin 2)} (hsignal : C.signal = false)
    (hhandler : C.handler = false) (hservice : C.service = .none) (hidle : C.idleLooks = false)
    (hring : ∀ p, ¬ C.intake.Ringing p) : ¬ C.Prompted := by
  rintro (⟨h, -⟩ | ⟨h, -⟩ | h | h | ⟨p, h⟩)
  · rw [hsignal] at h
    cases h
  · rw [hhandler] at h
    cases h
  · rw [hservice] at h
    cases h
  · rw [hidle] at h
    cases h
  · exact hring p h

/-- **An early post strands a wake**, and silences the next, in three ways. -/
theorem early_post_strands :
    (∃ C, run LinuxCore.next (.boot false) dropped = some C ∧ C.phase = .running ∧
      C.intake.head = some 1 ∧ ¬ C.Prompted) ∧
    (∃ C, run LinuxCore.next (.boot false) merged = some C ∧ C.phase = .running ∧
      C.intake.head = some 1 ∧ ¬ C.Prompted) ∧
    ∃ C, run Rp2350Core.next .boot silenced = some C ∧ C.phase = .running ∧ C.intake.head = some 1 ∧
      ¬ C.Prompted := by
  refine ⟨?_, ?_, ?_⟩
  · have hsome : (run LinuxCore.next (.boot false) dropped).map (fun C => ((C.phase, C.intake.head),
        (C.signal, C.handler, C.service, C.idleLooks), decide (∀ p, ¬ C.intake.Ringing p))) =
        some ((.running, some 1), (false, false, .none, false), true) := rfl
    obtain ⟨C, hrun, hview⟩ := Option.map_eq_some_iff.mp hsome
    simp only [Prod.mk.injEq] at hview
    obtain ⟨⟨hphase, hhead⟩, ⟨hsignal, hhandler, hservice, hidle⟩, hring⟩ := hview
    exact ⟨C, hrun, hphase, hhead, linux_unprompted hsignal hhandler hservice hidle (of_decide_eq_true hring)⟩
  · have hsome : (run LinuxCore.next (.boot false) merged).map (fun C => ((C.phase, C.intake.head),
        (C.signal, C.handler, C.service, C.idleLooks), decide (∀ p, ¬ C.intake.Ringing p))) =
        some ((.running, some 1), (false, false, .none, false), true) := rfl
    obtain ⟨C, hrun, hview⟩ := Option.map_eq_some_iff.mp hsome
    simp only [Prod.mk.injEq] at hview
    obtain ⟨⟨hphase, hhead⟩, ⟨hsignal, hhandler, hservice, hidle⟩, hring⟩ := hview
    exact ⟨C, hrun, hphase, hhead, linux_unprompted hsignal hhandler hservice hidle (of_decide_eq_true hring)⟩
  · have hsome : (run Rp2350Core.next .boot silenced).map (fun C => ((C.phase, C.intake.head),
        (C.doorbell, C.pendSv, C.bell, C.dispatch, C.service, C.idleLooks),
        decide (∀ p, ¬ C.intake.Ringing p))) =
        some ((.running, some 1), (false, false, .idle, .idle, .none, false), true) := rfl
    obtain ⟨C, hrun, hview⟩ := Option.map_eq_some_iff.mp hsome
    simp only [Prod.mk.injEq] at hview
    obtain ⟨⟨hphase, hhead⟩, ⟨hdoorbell, hpend, hbell, hdispatch, hservice, hidle⟩, hring⟩ := hview
    refine ⟨C, hrun, hphase, hhead, fun hprompted => ?_⟩
    cases hprompted with
    | ringing p h => exact of_decide_eq_true hring p h
    | doorbell h => simp [hdoorbell] at h
    | cleared h => simp [hbell] at h
    | looked h => simp [hbell] at h
    | pended h => simp [hpend] at h
    | entered h => simp [hdispatch] at h
    | asked h => simp [hdispatch] at h
    | ahead h => simp [hservice, Service.ahead] at h
    | idle h => simp [hidle] at h

end Cyros.Port
