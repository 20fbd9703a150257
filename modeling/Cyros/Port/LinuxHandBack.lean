import Mathlib.Data.Fintype.Basic
import Cyros.Port.LinuxMask

/-!
# What the preemptive Linux port hands back

The operating-system thread that starts the kernel lends it its signal mask.  `adopt_os_thread`, at
`cyros_port_init`, notes how that thread has each owned signal and takes the signal into the depth model;
`hand_back_signals` puts each one back as it was once nothing can raise it any more: at the end of
`cyros_port_start_cores`, or when a source closes, whichever comes last.  What is noted, and what has
been handed back, is thread local; which sources are open is known to the whole process.

The model is of a process with any number of such threads.  `own` is what the application itself last
made of a signal, which it changes only while the port does not hold it.  `hand_back_restores` says that
after a run, once no source of a signal is open, the thread has it that way again, as long as a source
closes on the thread that still waits for its signal; `closed_elsewhere` is a run in which it closes on
another.
-/

namespace Cyros.Port.LinuxHandBack

open Cyros.Lib Cyros.Port.LinuxMask

/-- An operating-system thread: its mask, its core state's depths and its `borrowed_thread_state`. -/
structure OsThread where
  mask : Mask
  depths : Depths
  adopted : Bool
  callerBlocked : Owned → Bool
  handedBack : Owned → Bool
  /-- How the application last left each signal. -/
  own : Owned → Bool
  /-- Its last run has ended, and it has not been adopted since. -/
  ended : Bool

namespace OsThread

/-- `apply_mask` of this thread. -/
def applyMask (o : OsThread) : OsThread :=
  { o with
    mask := sigUnblock (unblockSet o.handedBack o.depths)
      (sigBlock (blockSet o.handedBack o.depths) o.mask) }

/-- `adopt_os_thread`.  A signal still in the model from an earlier run keeps what was noted then. -/
def adopt (o : OsThread) : OsThread :=
  applyMask { o with
    adopted := true
    callerBlocked := fun s =>
      if o.adopted && !o.handedBack s then o.callerBlocked s else o.mask (.owned s)
    handedBack := fun _ => false
    ended := false }

/-- One turn of the loop of `hand_back_signals`. -/
def handBackOne (stillOpen : Owned → Bool) (o : OsThread) (s : Owned) : OsThread :=
  if o.handedBack s || stillOpen s then o
  else
    let only : Mask := fun sig => sig == .owned s
    { o with
      mask := if o.callerBlocked s then sigBlock only o.mask else sigUnblock only o.mask
      handedBack := Function.update o.handedBack s true }

/-- `hand_back_signals`. -/
def handBack (stillOpen : Owned → Bool) (o : OsThread) : OsThread :=
  if o.adopted then ownedSignals.foldl (handBackOne stillOpen) o else o

/-- The start of `cyros_port_start_cores`: the core state is reset, then `enter_dormant_region`. -/
def enterDormant (o : OsThread) : OsThread :=
  { o with
    depths := ⟨1, 0⟩
    mask := sigBlock (blockSet o.handedBack ⟨1, 0⟩) o.mask
    ended := false }

end OsThread

/-- The process. -/
structure Process (Os : Type) where
  thread : Os → OsThread
  openSources : Owned → Bool
  /-- The thread inside `cyros_port_start_cores`, while the cores are launched. -/
  cores : Option Os

inductive Act (Os : Type)
  /-- The application changes its own mask. -/
  | setMask (t : Os) (s : Owned) (blocked : Bool)
  /-- `cyros_port_init`. -/
  | init (t : Os)
  /-- A critical section of the thread that started the kernel, outside a run, ends at these depths. -/
  | settle (t : Os) (d : Depths)
  /-- `cyros_port_start_cores` starts. -/
  | start (t : Os)
  /-- The run: whatever the core on that thread does to its mask and depths. -/
  | work (mask : Mask) (d : Depths)
  /-- The cores have unwound and been joined; the end of `cyros_port_start_cores`. -/
  | stop
  /-- `source_opened`, on whatever thread. -/
  | opens (s : Owned)
  /-- `source_closed`, on this thread. -/
  | closes (t : Os) (s : Owned)

namespace Process

variable {Os : Type} [DecidableEq Os]

def set (p : Process Os) (t : Os) (o : OsThread) : Process Os :=
  { p with thread := Function.update p.thread t o }

def next (p : Process Os) : Act Os → Option (Process Os)
  | .setMask t s blocked =>
      if p.cores = some t ∨ (p.thread t).adopted ∧ (p.thread t).handedBack s = false then none
      else some (p.set t { p.thread t with
        mask := Function.update (p.thread t).mask (.owned s) blocked
        own := Function.update (p.thread t).own s blocked })
  | .init t => if p.cores = none then some (p.set t (p.thread t).adopt) else none
  | .settle t d =>
      if p.cores = some t ∨ (p.thread t).adopted = false then none
      else some (p.set t { p.thread t with depths := d }.applyMask)
  | .start t =>
      if p.cores = none ∧ (p.thread t).adopted ∧ (∀ s ∈ ownedSignals, (p.thread t).handedBack s = false)
      then some { p.set t (p.thread t).enterDormant with cores := some t }
      else none
  | .work mask d => match p.cores with
      | none => none
      | some t => some (p.set t { p.thread t with mask := mask, depths := d })
  | .stop => match p.cores with
      | none => none
      | some t =>
          -- the unwind has left the reschedule signal blocked, which is checked
          if (p.thread t).mask (.owned .reschedule) then some { p.set t
            { (p.thread t).handBack p.openSources with ended := true } with cores := none }
          else none
  | .opens s => some { p with openSources := Function.update p.openSources s true }
  | .closes t s =>
      if p.cores = none then
        let stillOpen := Function.update p.openSources s false
        some { p.set t ((p.thread t).handBack stillOpen) with openSources := stillOpen }
      else none

/-- A process in which the port has not been used yet, whatever its threads block. -/
def boot (own : Os → Mask) : Process Os where
  thread t := ⟨own t, ⟨0, 0⟩, false, fun _ => false, fun _ => false, fun s => own t (.owned s), false⟩
  openSources _ := false
  cores := none

end Process

/-! ### What each function does to one signal -/

namespace OsThread

theorem handBackOne_owned (stillOpen : Owned → Bool) (o : OsThread) (s s' : Owned) :
    (handBackOne stillOpen o s).mask (.owned s') =
      if s' = s ∧ o.handedBack s = false ∧ stillOpen s = false then o.callerBlocked s
      else o.mask (.owned s') := by
  unfold handBackOne
  cases hh : o.handedBack s with
  | true => simp
  | false =>
      cases ho : stillOpen s with
      | true => simp
      | false =>
          by_cases hs : s' = s
          · subst hs
            cases hc : o.callerBlocked s' <;> simp [sigBlock, sigUnblock]
          · cases hc : o.callerBlocked s <;> simp [sigBlock, sigUnblock, hs]

theorem handBackOne_handedBack (stillOpen : Owned → Bool) (o : OsThread) (s s' : Owned) :
    (handBackOne stillOpen o s).handedBack s' =
      if s' = s then o.handedBack s || !stillOpen s else o.handedBack s' := by
  unfold handBackOne
  by_cases hs : s' = s
  · subst hs
    cases hh : o.handedBack s' <;> cases ho : stillOpen s' <;> simp [hh]
  · cases hh : o.handedBack s <;> cases ho : stillOpen s <;> simp [hs]

/-- What a turn of the loop leaves alone. -/
theorem handBackOne_rest (stillOpen : Owned → Bool) (o : OsThread) (s : Owned) :
    (handBackOne stillOpen o s).adopted = o.adopted ∧
    (handBackOne stillOpen o s).callerBlocked = o.callerBlocked ∧
    (handBackOne stillOpen o s).own = o.own ∧ (handBackOne stillOpen o s).ended = o.ended := by
  unfold handBackOne
  split <;> exact ⟨rfl, rfl, rfl, rfl⟩

theorem handBack_rest (stillOpen : Owned → Bool) (o : OsThread) :
    (o.handBack stillOpen).adopted = o.adopted ∧
    (o.handBack stillOpen).callerBlocked = o.callerBlocked ∧
    (o.handBack stillOpen).own = o.own ∧ (o.handBack stillOpen).ended = o.ended := by
  unfold handBack
  split
  · obtain ⟨h₁, h₂, h₃, h₄⟩ := handBackOne_rest stillOpen o .reschedule
    obtain ⟨k₁, k₂, k₃, k₄⟩ := handBackOne_rest stillOpen (handBackOne stillOpen o .reschedule) .timer
    exact ⟨k₁.trans h₁, k₂.trans h₂, k₃.trans h₃, k₄.trans h₄⟩
  · exact ⟨rfl, rfl, rfl, rfl⟩

/-- After `hand_back_signals` a signal has been handed back when it had been, or nothing has it open. -/
theorem handBack_handedBack {o : OsThread} (stillOpen : Owned → Bool) (ha : o.adopted = true) (s : Owned) :
    (o.handBack stillOpen).handedBack s = (o.handedBack s || !stillOpen s) := by
  rw [handBack, if_pos ha]
  show (handBackOne stillOpen (handBackOne stillOpen o .reschedule) .timer).handedBack s = _
  cases s <;> simp [handBackOne_handedBack]

theorem handBack_mask {o : OsThread} (stillOpen : Owned → Bool) (ha : o.adopted = true) (s : Owned) :
    (o.handBack stillOpen).mask (.owned s) =
      if o.handedBack s = false ∧ stillOpen s = false then o.callerBlocked s else o.mask (.owned s) := by
  rw [handBack, if_pos ha]
  show (handBackOne stillOpen (handBackOne stillOpen o .reschedule) .timer).mask (.owned s) = _
  cases s <;>
    simp [handBackOne_owned, handBackOne_handedBack, (handBackOne_rest stillOpen o .reschedule).2.1]

/-- `apply_mask` leaves what has been handed back alone. -/
theorem applyMask_of_handedBack {o : OsThread} {s : Owned} (h : o.handedBack s = true) :
    o.applyMask.mask (.owned s) = o.mask (.owned s) := by
  have hnot : ¬ Held o.handedBack (.owned s) := by
    rintro ⟨s', hs', hheld⟩
    cases hs'
    rw [h] at hheld
    cases hheld
  exact (Agree.trans (agree_sigBlock _ o.mask) (agree_sigUnblock _ _)) (.owned s) hnot

/-! ### One thread -/

/-- What holds of a thread, `running` while the cores run on it. -/
structure Ok (openSources : Owned → Bool) (running : Prop) (o : OsThread) : Prop where
  free : o.adopted = false → ¬ running ∧ o.ended = false ∧ ∀ s, o.mask (.owned s) = o.own s
  back : o.adopted = true → ∀ s, o.handedBack s = true → ¬ running ∧ o.mask (.owned s) = o.own s
  held : o.adopted = true → ∀ s, o.handedBack s = false → o.callerBlocked s = o.own s
  waits : o.ended = true → ∀ s, o.handedBack s = false → openSources s = true

theorem Ok.adopt {openSources : Owned → Bool} {o : OsThread} (h : Ok openSources False o) :
    Ok openSources False o.adopt := by
  refine ⟨?_, ?_, ?_, ?_⟩
  · intro ha
    cases ha
  · intro _ s hs
    cases hs
  · intro _ s _
    show (if o.adopted && !o.handedBack s then o.callerBlocked s else o.mask (.owned s)) = o.own s
    cases ha : o.adopted with
    | false => exact (h.free ha).2.2 s
    | true =>
        cases hb : o.handedBack s with
        | false => exact h.held ha s hb
        | true => exact (h.back ha s hb).2
  · intro he
    cases he

/-- What `hand_back_signals` leaves in the model has a source open. -/
theorem Ok.handBack (stillOpen : Owned → Bool) {o : OsThread} (ha : o.adopted = true)
    (hback : ∀ s, o.handedBack s = true → o.mask (.owned s) = o.own s)
    (hheld : ∀ s, o.handedBack s = false → o.callerBlocked s = o.own s) (ended : Bool) :
    Ok stillOpen False { o.handBack stillOpen with ended := ended } := by
  obtain ⟨hadopted, hcaller, hown, -⟩ := handBack_rest stillOpen o
  have hmask : ∀ s, (o.handBack stillOpen).handedBack s = true →
      (o.handBack stillOpen).mask (.owned s) = o.own s := by
    intro s hs
    rw [handBack_handedBack stillOpen ha] at hs
    rw [handBack_mask stillOpen ha]
    cases hb : o.handedBack s with
    | true =>
        rw [if_neg (by simp)]
        exact hback s hb
    | false =>
        rw [hb, Bool.false_or, Bool.not_eq_true'] at hs
        rw [if_pos ⟨rfl, hs⟩]
        exact hheld s hb
  refine ⟨?_, ?_, ?_, ?_⟩
  · intro hfree
    have : (o.handBack stillOpen).adopted = false := hfree
    rw [hadopted, ha] at this
    cases this
  · intro _ s hs
    refine ⟨not_false, ?_⟩
    show (o.handBack stillOpen).mask (.owned s) = (o.handBack stillOpen).own s
    rw [hown]
    exact hmask s hs
  · intro _ s hs
    show (o.handBack stillOpen).callerBlocked s = (o.handBack stillOpen).own s
    have hs' : (o.handBack stillOpen).handedBack s = false := hs
    rw [handBack_handedBack stillOpen ha, Bool.or_eq_false_iff] at hs'
    rw [hcaller, hown]
    exact hheld s hs'.1
  · intro _ s hs
    have hs' : (o.handBack stillOpen).handedBack s = false := hs
    rw [handBack_handedBack stillOpen ha, Bool.or_eq_false_iff, Bool.not_eq_false'] at hs'
    exact hs'.2

theorem Ok.closes {openSources stillOpen : Owned → Bool} {o : OsThread} (h : Ok openSources False o) :
    Ok stillOpen False (o.handBack stillOpen) := by
  cases ha : o.adopted with
  | true =>
      have hended : (o.handBack stillOpen).ended = o.ended := (handBack_rest stillOpen o).2.2.2
      have := Ok.handBack stillOpen ha (fun s hs => (h.back ha s hs).2) (h.held ha) o.ended
      rw [← hended] at this
      exact this
  | false =>
      have hnone : o.handBack stillOpen = o := by
        rw [OsThread.handBack, ha]
        rfl
      rw [hnone]
      refine ⟨fun _ => h.free ha, ?_, ?_, ?_⟩
      · intro ha'
        rw [ha] at ha'
        cases ha'
      · intro ha'
        rw [ha] at ha'
        cases ha'
      · intro he
        rw [(h.free ha).2.1] at he
        cases he

theorem Ok.setMask {openSources : Owned → Bool} {o : OsThread} {s : Owned}
    (h : Ok openSources False o) (hfree : ¬ (o.adopted = true ∧ o.handedBack s = false)) (b : Bool) :
    Ok openSources False { o with
      mask := Function.update o.mask (.owned s) b
      own := Function.update o.own s b } := by
  have hupdate : ∀ s', o.mask (.owned s') = o.own s' →
      Function.update o.mask (.owned s) b (.owned s') = Function.update o.own s b s' := by
    intro s' hs'
    by_cases heq : s' = s
    · subst heq
      rw [Function.update_self, Function.update_self]
    · rw [Function.update_of_ne heq, Function.update_of_ne (fun h => heq (Signal.owned.inj h))]
      exact hs'
  refine ⟨?_, ?_, ?_, h.waits⟩
  · intro ha
    obtain ⟨hrun, hended, hmask⟩ := h.free ha
    exact ⟨hrun, hended, fun s' => hupdate s' (hmask s')⟩
  · intro ha s' hs'
    exact ⟨not_false, hupdate s' (h.back ha s' hs').2⟩
  · intro ha s' hs'
    have hne : s' ≠ s := by
      rintro rfl
      exact hfree ⟨ha, hs'⟩
    show o.callerBlocked s' = Function.update o.own s b s'
    rw [Function.update_of_ne hne]
    exact h.held ha s' hs'

end OsThread

/-! ### The process -/

namespace Process

variable {Os : Type}

/-- A source closes on a thread such that no other thread whose run has ended still waits for the
signal. -/
def ClosesAtHome (p : Process Os) : Act Os → Prop
  | .closes t s => ∀ u, u ≠ t → (p.thread u).ended = true → (p.thread u).handedBack s = true
  | _ => True

instance [Fintype Os] [DecidableEq Os] (p : Process Os) (a : Act Os) : Decidable (p.ClosesAtHome a) :=
  match a with
  | .closes t s => inferInstanceAs (Decidable
      (∀ u, u ≠ t → (p.thread u).ended = true → (p.thread u).handedBack s = true))
  | .setMask .. | .init _ | .settle .. | .start _ | .work .. | .stop | .opens _ => isTrue trivial

def Inv (p : Process Os) : Prop := ∀ t, (p.thread t).Ok p.openSources (p.cores = some t)

theorem inv_boot (own : Os → Mask) : Inv (boot own) := by
  intro t
  refine ⟨fun _ => ⟨?_, rfl, fun _ => rfl⟩, ?_, ?_, ?_⟩
  · intro h
    cases h
  · intro h
    cases h
  · intro h
    cases h
  · intro h
    cases h

/-- Being the running thread enters the invariant only through its falsity. -/
theorem ok_of_not_running {openSources : Owned → Bool} {running : Prop} {o : OsThread}
    (h : o.Ok openSources False) (hrun : ¬ running) : o.Ok openSources running :=
  ⟨fun ha => ⟨hrun, (h.free ha).2⟩, fun ha s hs => ⟨hrun, (h.back ha s hs).2⟩, h.held, h.waits⟩

theorem ok_not_running {openSources : Owned → Bool} {running : Prop} {o : OsThread}
    (h : o.Ok openSources running) : o.Ok openSources False :=
  ⟨fun ha => ⟨not_false, (h.free ha).2⟩, fun ha s hs => ⟨not_false, (h.back ha s hs).2⟩, h.held, h.waits⟩

variable [DecidableEq Os]

/-- A step of one thread, which leaves the cores and the sources as they are. -/
theorem Inv.set {p : Process Os} (hp : Inv p) {t : Os} {o : OsThread}
    (ho : o.Ok p.openSources (p.cores = some t)) : Inv (p.set t o) := by
  intro u
  show (Function.update p.thread t o u).Ok p.openSources (p.cores = some u)
  by_cases hu : u = t
  · subst hu
    rw [Function.update_self]
    exact ho
  · rw [Function.update_of_ne hu]
    exact hp u

theorem Inv.next {p p' : Process Os} {a : Act Os} (hp : Inv p) (hok : p.ClosesAtHome a)
    (h : p.next a = some p') : Inv p' := by
  cases a with
  | setMask t s b =>
      unfold Process.next at h
      dsimp only at h
      split at h
      · cases h
      · next hfree =>
          obtain rfl := Option.some.inj h
          apply hp.set
          apply ok_of_not_running
          · exact (ok_not_running (hp t)).setMask (fun hheld => hfree (Or.inr hheld)) b
          · exact fun hrun => hfree (Or.inl hrun)
  | init t =>
      unfold Process.next at h
      dsimp only at h
      split at h
      · next hnone =>
          obtain rfl := Option.some.inj h
          apply hp.set
          apply ok_of_not_running (ok_not_running (hp t)).adopt
          rw [hnone]
          exact Option.some_ne_none t ∘ Eq.symm
      · cases h
  | settle t d =>
      unfold Process.next at h
      dsimp only at h
      split at h
      · cases h
      · next hout =>
          obtain rfl := Option.some.inj h
          have hrun : p.cores ≠ some t := fun hrun => hout (Or.inl hrun)
          have ha : (p.thread t).adopted = true := by
            cases ha : (p.thread t).adopted with
            | true => rfl
            | false => exact absurd (Or.inr ha) hout
          apply hp.set
          refine ⟨?_, ?_, (hp t).held, (hp t).waits⟩
          · intro hfree
            have : (p.thread t).adopted = false := hfree
            rw [ha] at this
            cases this
          · intro _ s hs
            have hs' : (p.thread t).handedBack s = true := hs
            have hmask : ({ p.thread t with depths := d }.applyMask).mask (.owned s) =
              (p.thread t).mask (.owned s) := OsThread.applyMask_of_handedBack hs'
            exact ⟨hrun, hmask.trans ((hp t).back ha s hs').2⟩
  | start t =>
      unfold Process.next at h
      dsimp only at h
      split at h
      · next hstart =>
          obtain ⟨hnone, ha, hback⟩ := hstart
          obtain rfl := Option.some.inj h
          have hheld : ∀ s, (p.thread t).handedBack s = false := by
            intro s
            apply hback
            cases s with
            | reschedule => exact List.mem_cons_self
            | timer => exact List.mem_cons_of_mem _ List.mem_cons_self
          intro u
          show (Function.update p.thread t _ u).Ok p.openSources (some t = some u)
          by_cases hu : u = t
          · subst hu
            rw [Function.update_self]
            refine ⟨?_, ?_, (hp u).held, ?_⟩
            · intro hfree
              have : (p.thread u).adopted = false := hfree
              rw [ha] at this
              cases this
            · intro _ s hs
              have : (p.thread u).handedBack s = true := hs
              rw [hheld s] at this
              cases this
            · intro he
              cases he
          · rw [Function.update_of_ne hu]
            exact ok_of_not_running (ok_not_running (hp u)) fun heq => hu (Option.some.inj heq).symm
      · cases h
  | work m d =>
      unfold Process.next at h
      dsimp only at h
      split at h
      · cases h
      · next t hcores =>
          obtain rfl := Option.some.inj h
          apply hp.set
          refine ⟨?_, ?_, (hp t).held, (hp t).waits⟩
          · intro hfree
            exact absurd hcores ((hp t).free hfree).1
          · intro ha s hs
            exact absurd hcores ((hp t).back ha s hs).1
  | stop =>
      unfold Process.next at h
      dsimp only at h
      split at h
      · cases h
      · next t hcores =>
          split at h
          · obtain rfl := Option.some.inj h
            have ha : (p.thread t).adopted = true := by
              cases ha : (p.thread t).adopted with
              | true => rfl
              | false => exact absurd hcores ((hp t).free ha).1
            have hended := OsThread.Ok.handBack p.openSources ha
              (fun s hs => absurd hcores ((hp t).back ha s hs).1) ((hp t).held ha) true
            intro u
            show (Function.update p.thread t _ u).Ok p.openSources (none = some u)
            by_cases hu : u = t
            · subst hu
              rw [Function.update_self]
              exact ok_of_not_running hended (Option.some_ne_none u ∘ Eq.symm)
            · rw [Function.update_of_ne hu]
              exact ok_of_not_running (ok_not_running (hp u)) (Option.some_ne_none u ∘ Eq.symm)
          · cases h
  | opens s =>
      obtain rfl := Option.some.inj h
      intro u
      refine ⟨(hp u).free, (hp u).back, (hp u).held, ?_⟩
      intro he s' hs'
      show Function.update p.openSources s true s' = true
      by_cases heq : s' = s
      · subst heq
        exact Function.update_self ..
      · rw [Function.update_of_ne heq]
        exact (hp u).waits he s' hs'
  | closes t s =>
      unfold Process.next at h
      dsimp only at h
      split at h
      · next hnone =>
          obtain rfl := Option.some.inj h
          intro u
          show (Function.update p.thread t _ u).Ok (Function.update p.openSources s false) (p.cores = some u)
          rw [hnone]
          by_cases hu : u = t
          · subst hu
            rw [Function.update_self]
            exact ok_of_not_running (ok_not_running (hp u)).closes (Option.some_ne_none u ∘ Eq.symm)
          · rw [Function.update_of_ne hu]
            have hu' := hp u
            rw [hnone] at hu'
            refine ⟨hu'.free, hu'.back, hu'.held, ?_⟩
            intro he s' hs'
            -- the thread does not wait for the signal whose source closes elsewhere
            have hne : s' ≠ s := by
              rintro rfl
              rw [hok u hu he] at hs'
              cases hs'
            rw [Function.update_of_ne hne]
            exact hu'.waits he s' hs'
      · cases h

/-- **What was borrowed is handed back.**  For every number of runs, on any threads, and every order of
initialising, starting and stopping, of opening sources and closing them, in which a source closes only
on a thread such that no other one whose run has ended still waits for its signal: a thread whose run
has ended has each owned signal that no source holds open exactly as the application left it. -/
theorem hand_back_restores {own : Os → Mask} {as : List (Act Os)} {p : Process Os}
    (hok : Meets next ClosesAtHome (boot own) as) (h : run next (boot own) as = some p) (t : Os)
    (hended : (p.thread t).ended = true) (s : Owned) (hclosed : p.openSources s = false) :
    (p.thread t).mask (.owned s) = (p.thread t).own s := by
  have hp : Inv p :=
    run_invariant_of_meets (fun _ _ _ hs hstep hn => Inv.next hs hstep hn) (inv_boot own) hok h
  have hback : (p.thread t).handedBack s = true := by
    cases hb : (p.thread t).handedBack s with
    | true => rfl
    | false =>
        rw [(hp t).waits hended s hb] at hclosed
        cases hclosed
  cases ha : (p.thread t).adopted with
  | true => exact ((hp t).back ha s hback).2
  | false =>
      rw [((hp t).free ha).2.1] at hended
      cases hended

/-- Two threads, neither of which blocks an owned signal. -/
def openBoot : Process (Fin 2) := boot fun _ _ => false

/-- Two runs of the first thread, the time source of the first still open when the second starts. -/
theorem hand_back_restores_twice :
    ∃ p : Process (Fin 2), run next openBoot
      [.init 0, .start 0, .opens .timer, .stop, .init 0, .start 0, .stop, .closes 0 .timer] = some p ∧
      (p.thread 0).mask (.owned .timer) = (p.thread 0).own .timer := by
  obtain ⟨p, hp, hend⟩ := Option.map_eq_some_iff.1
    (show (run next openBoot [.init 0, .start 0, .opens .timer, .stop, .init 0, .start 0, .stop,
        .closes 0 .timer]).map (fun p => ((p.thread 0).ended, p.openSources .timer)) =
      some (true, false) by decide +kernel)
  obtain ⟨hended, hclosed⟩ := Prod.mk.inj hend
  exact ⟨p, hp, hand_back_restores (by decide +kernel) hp 0 hended .timer hclosed⟩

/-- **The source closes elsewhere.**  The first thread runs the kernel and the time source stays open;
another thread of the process then finalises time.  No core runs, no source is open, and the first
thread has the timer's signal blocked, which it had not. -/
theorem closed_elsewhere :
    ∃ p : Process (Fin 2), run next openBoot
      [.init 0, .start 0, .opens .timer, .stop, .closes 1 .timer] = some p ∧
      p.cores = none ∧ (∀ s, p.openSources s = false) ∧ (p.thread 0).ended = true ∧
      (p.thread 0).mask (.owned .timer) = true ∧ (p.thread 0).own .timer = false := by
  obtain ⟨p, hp, hend⟩ := Option.map_eq_some_iff.1
    (show (run next openBoot [.init 0, .start 0, .opens .timer, .stop, .closes 1 .timer]).map
        (fun p => (p.cores, p.openSources .reschedule, p.openSources .timer, (p.thread 0).ended,
          (p.thread 0).mask (.owned .timer), (p.thread 0).own .timer)) =
      some (none, false, false, true, true, false) by decide +kernel)
  simp only [Prod.mk.injEq] at hend
  obtain ⟨hcores, hr, ht, hended, hmask, hown⟩ := hend
  refine ⟨p, hp, hcores, ?_, hended, hmask, hown⟩
  intro s
  cases s with
  | reschedule => exact hr
  | timer => exact ht

end Process

end Cyros.Port.LinuxHandBack
