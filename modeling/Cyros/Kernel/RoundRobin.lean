import Cyros.Lib.Rotation
import Cyros.Kernel.HolderView
import Cyros.Kernel.Pick

/-!
# Round-robin rotation

A set of threads of one base priority that hold nothing and neither yield nor block, on a core whose timer
pends a reschedule at the end of every slice.  Among other threads of their level they keep an order, the
*ring*: the running one of them first, then the others as they stand in their level.  Wakes, blocks and
preemptions by others leave the ring as it is (`Sched.Row`, `Sched.Ring`), and a departure to the back of
the level rotates it by one.

* `rotation_bounded`: among any `n` consecutive slice expiries that find a thread of the set running, each
  of the `n` threads is the running one once, in every run in which the reschedule of such an expiry finds
  the thread still running and nothing more urgent ready, and no other reschedule sends one of them to the
  back.
* `slice_lost_to_preemption`: a more urgent thread readied by the timer interrupt itself sends the running
  thread to the front instead, and the slice rotates nothing.
-/

namespace Cyros.Kernel

open Cyros.Lib Cyros.Lib.IntrusiveQueue

namespace Sched

variable {Tid : Type} {A : Finset Tid} {p : Level} {s s' : Sched Tid}

/-! ### The row of a set of threads in its level -/

/-- The threads of `A` are peers of level `p`, and hold nothing. -/
structure Peers (A : Finset Tid) (p : Level) (s : Sched Tid) : Prop where
  base : ∀ t ∈ A, s.basePriority t = p
  held : ∀ t ∈ A, s.heldMask t = 0
  idle : s.idleThread ∉ A
  lives : ∀ t ∈ A, s.disposition t ≠ .terminating

variable [DecidableEq Tid]

/-- `q` is the order in which threads of `A` stand in level `p`, and none of them is a listed holder. -/
def Row (A : Finset Tid) (p : Level) (s : Sched Tid) (q : List Tid) : Prop :=
  ∃ levels hs, Filed s levels hs ∧ (levels p).filter (· ∈ A) = q ∧ ∀ t ∈ A, t ∉ hs

/-- The running thread of `A`, if one is running. -/
def runner (A : Finset Tid) (s : Sched Tid) : List Tid := s.currentThread.toList.filter (· ∈ A)

/-- The ring: the running thread of `A`, and the others in the order of their level. -/
def Ring (A : Finset Tid) (p : Level) (s : Sched Tid) (r : List Tid) : Prop :=
  ∃ q, Row A p s q ∧ r = s.runner A ++ q

theorem Row.transfer {q : List Tid} (h : Row A p s q) (hnext : s'.next = s.next)
    (hholderNext : s'.holderNext = s.holderNext) (hmatrix : s'.matrix = s.matrix)
    (hholders : s'.holders = s.holders) (hbitmap : s'.bitmap = s.bitmap)
    (hbase : s'.basePriority = s.basePriority) : Row A p s' q := by
  obtain ⟨levels, hs, hf, hq, hfree⟩ := h
  exact ⟨levels, hs, hf.transfer hnext hholderNext hmatrix hholders hbitmap hbase, hq, hfree⟩

/-- A thread of the row is in the matrix and nowhere else. -/
theorem Row.filed {q : List Tid} (h : Row A p s q) {t : Tid} (ht : t ∈ q) (hbase : s.basePriority t = p) :
    s.isEnqueued t = true := by
  obtain ⟨levels, hs, hf, rfl, -⟩ := h
  rw [hf.isEnqueued_iff, hbase]
  exact (List.mem_filter.mp ht).1

/-- Filing a thread outside `A` leaves the row. -/
theorem Row.admitThread_other {q : List Tid} (h : Row A p s q) {t : Tid} (ht : t ∉ A)
    (henq : s.isEnqueued t = false) (hlisted : s.isListedHolder t = false) (atFront : Bool) :
    Row A p (s.admitThread t atFront) q := by
  obtain ⟨levels, hs, hf, rfl, hfree⟩ := h
  rw [← Bool.not_eq_true, hf.isEnqueued_iff] at henq
  rw [← Bool.not_eq_true, hf.isListedHolder_iff] at hlisted
  obtain ⟨levels', hs', hadmits, hf'⟩ := hf.admitThread henq hlisted atFront
  cases hadmits with
  | idle => exact ⟨levels, hs, hf', rfl, hfree⟩
  | matrix => exact ⟨_, hs, hf', filter_update (by cases atFront <;> simp [ht]), hfree⟩
  | holder =>
      refine ⟨levels, _, hf', rfl, fun x hx hmem => ?_⟩
      rcases List.mem_append.mp hmem with hmem | hmem
      · exact hfree x hx hmem
      · exact ht (List.mem_singleton.mp hmem ▸ hx)

/-- Filing a peer puts it at the front or the back of the row. -/
theorem Row.admitThread_peer {q : List Tid} (h : Row A p s q) (hp : Peers A p s) {t : Tid} (ht : t ∈ A)
    (htq : t ∉ q) (atFront : Bool) :
    Row A p (s.admitThread t atFront) (if atFront then t :: q else q ++ [t]) := by
  obtain ⟨levels, hs, hf, rfl, hfree⟩ := h
  have hlevel : t ∉ levels (s.basePriority t) := by
    intro hm
    rw [hp.base t ht] at hm
    exact htq (List.mem_filter.mpr ⟨hm, by simpa using ht⟩)
  obtain ⟨levels', hs', hadmits, hf'⟩ := hf.admitThread hlevel (hfree t ht) atFront
  cases hadmits with
  | idle hidle => exact absurd (hidle ▸ ht) hp.idle
  | matrix =>
      refine ⟨_, hs, hf', ?_, hfree⟩
      rw [hp.base t ht, Function.update_self]
      cases atFront <;> simp [ht]
  | holder _ hheld => exact absurd (hp.held t ht) hheld

variable [Fintype Tid]

/-- **A wake leaves the row**, if it is not of a peer that is out of it. -/
theorem Row.makeReady {q : List Tid} (h : Row A p s q) (hp : Peers A p s) (fold : Tid → ℕ) {t : Tid}
    (ht : t ∈ A → t ∈ q) : Row A p (s.makeReady fold t).1 q := by
  obtain ⟨levels, hs, hf, hq, hfree⟩ := id h
  rcases hf.makeReady fold t with ⟨heq, -⟩ | ⟨heq, hmem, hheld⟩ | ⟨heq, -, -, hlevel, hholder⟩
  · rwa [heq]
  · -- a holder in the matrix, so none of the peers
    have htA : t ∉ A := fun hA => hheld (hp.held t hA)
    obtain ⟨ys, zs, hlevel, -, hf', -⟩ := hf.reroute hmem
    rw [heq]
    refine ⟨_, _, hf', ?_, fun x hx hmem => ?_⟩
    · rw [← hq]
      exact filter_update (by rw [hlevel]; simp [htA])
    · rcases List.mem_append.mp hmem with hmem | hmem
      · exact hfree x hx hmem
      · exact htA (List.mem_singleton.mp hmem ▸ hx)
  · rw [← hf.isEnqueued_iff, Bool.not_eq_true] at hlevel
    rw [← hf.isListedHolder_iff, Bool.not_eq_true] at hholder
    have htA : t ∉ A := fun hA => by simp [h.filed (ht hA) (hp.base t hA)] at hlevel
    rw [heq]
    exact h.admitThread_other htA hlevel hholder false

omit [DecidableEq Tid] [Fintype Tid] in
theorem Peers.congr (hp : Peers A p s) (hbase : s'.basePriority = s.basePriority)
    (hheld : s'.heldMask = s.heldMask) (hidle : s'.idleThread = s.idleThread)
    (hterm : ∀ t, s'.disposition t = .terminating → s.disposition t = .terminating) : Peers A p s' := by
  refine ⟨?_, ?_, ?_, fun t ht hd => hp.lives t ht (hterm t hd)⟩
  · rw [hbase]
    exact hp.base
  · rw [hheld]
    exact hp.held
  · rw [hidle]
    exact hp.idle

omit [DecidableEq Tid] [Fintype Tid] in
theorem Peers.woken (hp : Peers A p s) (h : Woken s s') : Peers A p s' :=
  hp.congr h.basePriority h.heldMask h.idleThread fun t => (h.terminating_iff t).1

omit [DecidableEq Tid] [Fintype Tid] in
theorem Peers.departed {c : Tid} {reason : Departure} (hp : Peers A p s)
    (h : Departed s s' c reason) : Peers A p s' :=
  hp.congr h.basePriority h.heldMask h.idleThread fun t => (h.terminating t).1

omit [Fintype Tid] in
/-- A batch of wakes, each of which leaves the row, leaves it. -/
theorem Row.foldl {q : List Tid} {f : Sched Tid → Tid → Sched Tid} {ts : List Tid}
    (hf : ∀ s, ∀ t ∈ ts, Tidy s → Peers A p s → Row A p s q →
      Row A p (f s t) q ∧ Tidy (f s t) ∧ Woken s (f s t))
    (htidy : Tidy s) (hp : Peers A p s) (h : Row A p s q) : Row A p (ts.foldl f s) q := by
  induction ts generalizing s with
  | nil => exact h
  | cons t ts ih =>
      obtain ⟨hrow, htidy', hw⟩ := hf s t List.mem_cons_self htidy hp h
      exact ih (fun s x hx => hf s x (List.mem_cons_of_mem t hx)) htidy' (hp.woken hw) hrow

theorem Row.globalReadyThread {q : List Tid} (h : Row A p s q) (hp : Peers A p s) (fold : Tid → ℕ)
    {t : Tid} (ht : t ∈ A → t ∈ q) : Row A p (s.globalReadyThread fold t) q := by
  simp only [Sched.globalReadyThread]
  split
  · exact h
  · next hdone =>
    rw [not_or] at hdone
    have h' : Row A p (s.setDisposition t .none) q := h.transfer rfl rfl rfl rfl rfl rfl
    have hw := woken_setDisposition hdone.2
    split
    · exact h'
    · exact h'.makeReady (hp.woken hw) fold ht

theorem Row.serviceIntake {q : List Tid} (h : Row A p s q) (htidy : Tidy s) (hp : Peers A p s)
    (fold : Tid → ℕ) {t : Tid} (ht : t ∈ A → t ∈ q) : Row A p (s.serviceIntake fold t) q := by
  obtain ⟨htidy₁, hw₁⟩ := htidy.takeRequests t
  have h₁ : Row A p (s.takeRequests t) q := h.transfer rfl rfl rfl rfl rfl rfl
  unfold Sched.serviceIntake
  split
  · have hw₂ := (htidy₁.revokePrepared t).2
    have h₂ : Row A p ((s.takeRequests t).revokePrepared t) q := by
      unfold Sched.revokePrepared
      split
      · exact h₁
      · exact h₁.transfer rfl rfl rfl rfl rfl rfl
    have hw := hw₁.trans hw₂
    exact h₂.makeReady (hp.woken hw) fold ht
  · exact h₁

theorem Row.drainIntake {q : List Tid} (h : Row A p s q) (htidy : Tidy s) (hp : Peers A p s)
    (fold : Tid → ℕ) (ht : ∀ t ∈ s.intake, t ∈ A → t ∈ q) : Row A p (s.drainIntake fold) q := by
  have htidy₀ : Tidy { s with intake := [] } := htidy.transfer rfl rfl rfl rfl rfl rfl rfl rfl
  have h₀ : Row A p { s with intake := [] } q := h.transfer rfl rfl rfl rfl rfl rfl
  refine h₀.foldl (fun s t hmem htidy hp hrow => ?_) htidy₀ ⟨hp.base, hp.held, hp.idle, hp.lives⟩
  obtain ⟨htidy', hw⟩ := htidy.serviceIntake fold t
  exact ⟨hrow.serviceIntake htidy hp fold (ht t (List.mem_reverse.mp hmem)), htidy', hw⟩

/-! ### The pick and the departures -/

/-- **The pick leaves the ring**: it takes the first of the row, or a thread outside the set. -/
theorem Row.runNext {q : List Tid} (h : Row A p s q) (hp : Peers A p s) (hall : ∀ t ∈ A, t ∈ q)
    (fold : Tid → ℕ) (hfold : ∀ t, fold t ≤ s.basePriority t) : Ring A p (s.runNext fold) q := by
  obtain ⟨levels, hs, hf, rfl, hfree⟩ := h
  have hbound : ∀ x ∈ hs, s.urgency fold x < 0xFF := by
    intro x _
    have hlevel := (s.basePriority x).isLt
    have hle := hfold x
    unfold urgency
    split <;> omega
  obtain ⟨levels', hs', htakes, hfiled, hsame⟩ := hf.takes_pickNext fold hbound
  have hrow : ∀ x, Filed ((s.pickNext fold).2.setThreadRunning x) levels' hs' := fun x =>
    ⟨hfiled.level, hfiled.holders, hfiled.base, hfiled.bitmap, hfiled.sentinel, hfiled.holderSentinel,
      hfiled.apart⟩
  unfold Sched.runNext
  cases hpick : s.pickNext fold with
  | mk picked s₁ =>
    rw [hpick] at htakes hrow hsame
    cases htakes with
    | nobody hlevels hholders =>
        refine ⟨_, ⟨levels, hs, hrow _, rfl, hfree⟩, ?_⟩
        have hidle : s₁.idleThread ∉ A := hsame.idleThread ▸ hp.idle
        simp [runner, setThreadRunning, hidle]
    | matrix b t ts hlevel hbest hholders =>
        refine ⟨_, ⟨_, hs, hrow t, rfl, hfree⟩, ?_⟩
        by_cases hpb : p = b
        · subst hpb
          rw [Function.update_self, hlevel]
          by_cases htA : t ∈ A <;> simp [runner, setThreadRunning, htA]
        · have htA : t ∉ A := fun hA => hpb ((hp.base t hA).symm.trans
            (hf.base b t (by simp [hlevel])))
          rw [Function.update_of_ne hpb]
          simp [runner, setThreadRunning, htA]
    | holder ys zs t hlist hfirst hrest hlevels =>
        have htA : t ∉ A := fun hA => hfree t hA (by simp [hlist])
        refine ⟨_, ⟨levels, _, hrow t, rfl, fun x hx hmem => ?_⟩, ?_⟩
        · apply hfree x hx
          rw [hlist]
          simp only [List.mem_append, List.mem_cons] at hmem ⊢
          tauto
        · simp [runner, setThreadRunning, htA]

omit [Fintype Tid] in
theorem runner_of_mem {c : Tid} (hcur : s.currentThread = some c) (hc : c ∈ A) : s.runner A = [c] := by
  simp [runner, hcur, hc]

omit [Fintype Tid] in
theorem runner_of_not_mem {c : Tid} (hcur : s.currentThread = some c) (hc : c ∉ A) :
    s.runner A = [] := by
  simp [runner, hcur, hc]

omit [Fintype Tid] in
/-- A peer that is current is running: it stands in no queue. -/
theorem Row.running {q : List Tid} (h : Row A p s q) (hp : Peers A p s) {c : Tid}
    (hc : Consistent s c) (hcA : c ∈ A) (hcq : c ∉ q) : s.state c = .running := by
  refine hc.live.resolve_right fun hready => ?_
  have hfiled := (hc.tidy.filed.mem_iff c).1 ⟨hready, fun he => hp.idle (he ▸ hcA)⟩
  obtain ⟨levels, hs, hf, rfl, hfree⟩ := h
  rw [Bool.or_eq_true, hf.isEnqueued_iff, hf.isListedHolder_iff, hp.base c hcA] at hfiled
  rcases hfiled with hmem | hmem
  · exact hcq (List.mem_filter.mpr ⟨hmem, by simpa using hcA⟩)
  · exact hfree c hcA hmem

/-- The departure of a thread outside the set leaves the row. -/
theorem Row.depart_other {q : List Tid} (h : Row A p s q) (hp : Peers A p s) {c : Tid}
    (hc : Consistent s c) (hrun : s.state c = .running) (hcA : c ∉ A) (hall : ∀ t ∈ A, t ∈ q)
    (fold : Tid → ℕ) (joiners : List Tid) (reason : Departure)
    (hidle : reason = .exited → c ≠ s.idleThread) :
    Row A p (s.depart fold joiners c reason) q := by
  have hnot : (s.isEnqueued c || s.isListedHolder c) = false := by
    rw [← Bool.not_eq_true, ← hc.tidy.filed.mem_iff c]
    intro hr
    rw [hr.1] at hrun
    cases hrun
  rw [Bool.or_eq_false_iff] at hnot
  cases reason with
  | yielded => exact h.admitThread_other hcA hnot.1 hnot.2 false
  | preempted => exact h.admitThread_other hcA hnot.1 hnot.2 true
  | parked => exact h.transfer rfl rfl rfl rfl rfl rfl
  | exited =>
      have htidy : Tidy { s.setState c .terminated with raised := c :: s.raised } :=
        (hc.tidy.setState_running hrun (hidle rfl) (by decide)).transfer rfl rfl rfl rfl rfl rfl rfl rfl
      have h' : Row A p { s.setState c .terminated with raised := c :: s.raised } q :=
        h.transfer rfl rfl rfl rfl rfl rfl
      refine h'.foldl (fun s t _ htidy hp hrow => ?_) htidy ⟨hp.base, hp.held, hp.idle, hp.lives⟩
      obtain ⟨htidy', hw⟩ := htidy.globalReadyThread fold t
      exact ⟨hrow.globalReadyThread hp fold fun hA => hall t hA, htidy', hw⟩

/-- The ring of a set none of which is missing from it, none twice. -/
structure Rings (A : Finset Tid) (p : Level) (s : Sched Tid) (r : List Tid) : Prop where
  peers : Peers A p s
  ring : Ring A p s r
  nodup : r.Nodup
  mem : ∀ t, t ∈ r ↔ t ∈ A

/-- The pick on a core on which nobody runs. -/
theorem Row.rings_runNext {q : List Tid} (h : Row A p s q) (hp : Peers A p s) (htidy : Tidy s)
    (hvacant : ∀ t, s.state t ≠ .running) (hnodup : q.Nodup) (hmem : ∀ t, t ∈ q ↔ t ∈ A)
    (fold : Tid → ℕ) (hfold : ∀ t, fold t ≤ s.basePriority t) : Rings A p (s.runNext fold) q := by
  obtain ⟨x, hx⟩ := htidy.runNext hvacant fold
  refine ⟨hp.congr hx.basePriority hx.heldMask hx.idleThread fun t => ?_,
    h.runNext hp (fun t ht => (hmem t).2 ht) fold hfold, hnodup, hmem⟩
  rw [hx.disposition]
  exact id

omit [Fintype Tid] in
/-- The ring while a peer runs: it comes first, and it is not in the row. -/
theorem Rings.of_mem {r : List Tid} {c : Tid} (h : Rings A p s r) (hcur : s.currentThread = some c)
    (hc : c ∈ A) : ∃ q, Row A p s q ∧ r = c :: q ∧ c ∉ q := by
  obtain ⟨q, hrow, hr⟩ := h.ring
  rw [runner_of_mem hcur hc, List.singleton_append] at hr
  have hnd := h.nodup
  rw [hr] at hnd
  exact ⟨q, hrow, hr, (List.nodup_cons.mp hnd).1⟩

omit [Fintype Tid] in
/-- The ring while another thread runs is the row. -/
theorem Rings.of_not_mem {r : List Tid} {c : Tid} (h : Rings A p s r) (hcur : s.currentThread = some c)
    (hc : c ∉ A) : Row A p s r := by
  obtain ⟨q, hrow, hr⟩ := h.ring
  rw [runner_of_not_mem hcur hc, List.nil_append] at hr
  exact hr ▸ hrow

/-- **A decision leaves the ring**: a peer departs to the front, where the pick took it from. -/
theorem Rings.decide {r : List Tid} {c : Tid} (h : Rings A p s r) (hc : Consistent s c)
    {fold : Tid → ℕ} (hfold : ∀ t, fold t ≤ s.basePriority t) {reason : Departure}
    (hreason : reason ≠ .exited)
    (hpark : reason = .parked → c ≠ s.idleThread ∧ s.disposition c ≠ .terminating)
    (hpeer : c ∈ A → reason = .preempted ∧ c ∉ s.intake) :
    Rings A p (s.decide fold reason) r := by
  obtain ⟨htidy, hw⟩ := hc.tidy.drainIntake fold
  have hc₁ := hc.woken htidy hw
  have hp₁ : Peers A p (s.drainIntake fold) := h.peers.woken hw
  have hall : ∀ t ∈ A, t ∈ r := fun t ht => (h.mem t).2 ht
  have hfold₁ : ∀ t, fold t ≤ (s.drainIntake fold).basePriority t := by
    rw [hw.basePriority]
    exact hfold
  obtain ⟨s₁, hv, heq⟩ := hc.decide_vacates fold hreason hpark
  rw [heq]
  by_cases hcA : c ∈ A
  · obtain ⟨rfl, hintake⟩ := hpeer hcA
    obtain ⟨q, hrow, rfl, hcq⟩ := h.of_mem hc.currentThread hcA
    have hrow₁ : Row A p (s.drainIntake fold) q := by
      refine hrow.drainIntake hc.tidy h.peers fold fun t ht hA => ?_
      rcases List.mem_cons.mp (hall t hA) with rfl | hq
      · exact absurd ht hintake
      · exact hq
    cases hv with
    | departs _ hdep =>
        have hrow₂ := hrow₁.admitThread_peer hp₁ hcA hcq true
        exact Row.rings_runNext hrow₂ (hp₁.departed hdep) hdep.tidy hdep.vacant h.nodup h.mem fold
          (hdep.basePriority ▸ hfold₁)
    | nobody _ hvacant => exact absurd (hrow₁.running hp₁ hc₁ hcA hcq) (hvacant c)
  · have hrow₁ : Row A p (s.drainIntake fold) r :=
      (h.of_not_mem hc.currentThread hcA).drainIntake hc.tidy h.peers fold fun t _ hA => hall t hA
    cases hv with
    | departs hrun hdep =>
        have hrow₂ := hrow₁.depart_other hp₁ hc₁ hrun hcA hall fold [] reason fun hr => absurd hr hreason
        exact hrow₂.rings_runNext (hp₁.departed hdep) hdep.tidy hdep.vacant h.nodup h.mem fold
          (hdep.basePriority ▸ hfold₁)
    | nobody htidy hvacant => exact hrow₁.rings_runNext hp₁ htidy hvacant h.nodup h.mem fold hfold₁

/-- **The handler's road rotates the ring by one** when it finds a peer running that nothing in the
matrix preempts, and leaves the ring otherwise. -/
theorem Rings.rescheduleGuarded {r : List Tid} {c : Tid} (h : Rings A p s r) (hc : Consistent s c)
    (hidle : s.disposition s.idleThread ≠ .terminating) {fold : Tid → ℕ}
    (hfold : ∀ t, fold t ≤ s.basePriority t) {joiners : List Tid}
    (hs : s.rescheduleGuarded fold joiners c = some s') :
    Rings A p s' (if c ∈ A ∧ s.preempted c = false then r.rotate 1 else r) := by
  have hall : ∀ t ∈ A, t ∈ r := fun t ht => (h.mem t).2 ht
  obtain ⟨s₁, hv, rfl⟩ := hc.rescheduleGuarded_vacates (fun hd he => hidle (he ▸ hd)) hs
  by_cases hcA : c ∈ A
  · obtain ⟨q, hrow, rfl, hcq⟩ := h.of_mem hc.currentThread hcA
    have hreason : s.departureOf c = if s.preempted c then .preempted else .yielded := by
      rw [Sched.departureOf, if_neg (h.peers.lives c hcA)]
    rw [hreason] at hv
    cases hv with
    | nobody _ hvacant => exact absurd (hrow.running h.peers hc hcA hcq) (hvacant c)
    | departs _ hdep =>
        have hbase := hfold
        rw [← hdep.basePriority] at hbase
        cases hpre : s.preempted c with
        | true =>
            rw [hpre, if_pos rfl] at hdep
            rw [hpre, if_pos rfl] at hbase
            rw [if_pos rfl, if_neg (by simp)]
            exact Row.rings_runNext (hrow.admitThread_peer h.peers hcA hcq true) (h.peers.departed hdep)
              hdep.tidy hdep.vacant h.nodup h.mem fold hbase
        | false =>
            rw [hpre, if_neg (by decide)] at hdep
            rw [hpre, if_neg (by decide)] at hbase
            rw [if_neg (by decide), if_pos ⟨hcA, rfl⟩]
            refine Row.rings_runNext ?_ (h.peers.departed hdep) hdep.tidy hdep.vacant
              (List.nodup_rotate.mpr h.nodup) (fun t => List.mem_rotate.trans (h.mem t)) fold hbase
            rw [List.rotate_cons_succ, List.rotate_zero]
            exact hrow.admitThread_peer h.peers hcA hcq false
  · rw [if_neg fun hcond => hcA hcond.1]
    have hrow := h.of_not_mem hc.currentThread hcA
    cases hv with
    | departs hrun hdep =>
        have hrow₁ := hrow.depart_other h.peers hc hrun hcA hall fold joiners _ fun hr he =>
          hidle (he ▸ departureOf_eq_exited_iff.1 hr)
        exact hrow₁.rings_runNext (h.peers.departed hdep) hdep.tidy hdep.vacant h.nodup h.mem fold
          (hdep.basePriority ▸ hfold)
    | nobody htidy hvacant => exact hrow.rings_runNext h.peers htidy hvacant h.nodup h.mem fold hfold

omit [Fintype Tid] in
/-- A step that leaves the ready structure and the current thread leaves the ring. -/
theorem Rings.transfer {r : List Tid} (h : Rings A p s r) (hp : Peers A p s') (hnext : s'.next = s.next)
    (hholderNext : s'.holderNext = s.holderNext) (hmatrix : s'.matrix = s.matrix)
    (hholders : s'.holders = s.holders) (hbitmap : s'.bitmap = s.bitmap)
    (hbase : s'.basePriority = s.basePriority) (hcur : s'.currentThread = s.currentThread) :
    Rings A p s' r := by
  obtain ⟨q, hrow, hr⟩ := h.ring
  refine ⟨hp, ⟨q, hrow.transfer hnext hholderNext hmatrix hholders hbitmap hbase, ?_⟩, h.nodup, h.mem⟩
  rw [hr, runner, runner, hcur]

omit [Fintype Tid] in
theorem Rings.setDisposition {r : List Tid} (h : Rings A p s r) {t : Tid} {d : Disposition}
    (hd : t ∈ A → d ≠ .terminating) : Rings A p (s.setDisposition t d) r := by
  refine h.transfer ⟨h.peers.base, h.peers.held, h.peers.idle, fun x hx => ?_⟩ rfl rfl rfl rfl rfl rfl rfl
  by_cases hxt : x = t
  · subst hxt
    simpa [Sched.setDisposition] using hd hx
  · simpa [Sched.setDisposition, Function.update_of_ne hxt] using h.peers.lives x hx

/-- A wake leaves the ring, unless it is of the running peer. -/
theorem Rings.makeReady {r : List Tid} (h : Rings A p s r) (htidy : Tidy s) (fold : Tid → ℕ) {t : Tid}
    (ht : t ∈ A → s.currentThread ≠ some t) : Rings A p (s.makeReady fold t).1 r := by
  have hw := (htidy.makeReady fold t).2
  obtain ⟨q, hrow, hr⟩ := h.ring
  have htq : t ∈ A → t ∈ q := by
    intro hA
    have hmem := (h.mem t).2 hA
    rw [hr, List.mem_append] at hmem
    refine hmem.resolve_left fun hrunner => ht hA ?_
    simpa using (List.mem_filter.mp hrunner).1
  refine ⟨h.peers.woken hw, ⟨q, hrow.makeReady h.peers fold htq, ?_⟩, h.nodup, h.mem⟩
  rw [hr, runner, runner, hw.currentThread]

theorem makeReady_intake {s : Sched Tid} (htidy : Tidy s) (fold : Tid → ℕ) (t : Tid) :
    (s.makeReady fold t).1.intake = s.intake := by
  obtain ⟨-, heq⟩ | ⟨-, -, hsame⟩ | ⟨-, -, -, heq⟩ := htidy.filed.makeReady fold t
  · rw [heq]
  · exact hsame.intake
  · rw [heq]
    exact (sameTcbs_admitThread s t false).intake

/-! ### The start -/

/-- Every thread registered is ready. -/
theorem registered_ready {ts : List Tid} (htidy : Tidy s)
    (hlive : ∀ t, s.state t ≠ .terminated ∧ s.disposition t ≠ .terminating) {t : Tid}
    (ht : t ∈ ts ∨ s.state t = .ready) :
    (ts.foldl (fun s t => (s.makeReady (fun _ => 0) t).1) s).state t = .ready := by
  induction ts generalizing s with
  | nil => exact ht.resolve_left (by simp)
  | cons x ts ih =>
      obtain ⟨htidy', hw⟩ := htidy.makeReady (fun _ => 0) x
      refine ih htidy' (fun y => ?_) ?_
      · rw [Ne, hw.terminated_iff, Ne, hw.terminating_iff]
        exact hlive y
      · rw [List.mem_cons, or_assoc] at ht
        rcases ht with rfl | ht | ht
        · right
          obtain ⟨hdone, -⟩ | ⟨hR, -, hsame⟩ | ⟨-, -, -, heq⟩ := htidy.filed.makeReady (fun _ => 0) t
          · exact absurd hdone (not_or.mpr (hlive t))
          · rw [hsame.state]
            exact hR.1
          · show (s.makeReady (fun _ => 0) t).1.state t = .ready
            rw [heq, admitThread_state, Function.update_self]
        · exact Or.inl ht
        · right
          rcases hw.state t with hs | ⟨hs, -⟩
          · rw [hs]
            exact ht
          · exact hs

/-- A set of registered threads has its ring from the start. -/
theorem rings_boot {idle : Tid} {basePriority : Tid → Level} {threads : List Tid}
    (hreg : ∀ t ∈ A, t ∈ threads) (hidle : idle ∉ A) (hbase : ∀ t ∈ A, basePriority t = p) :
    ∃ r, (boot idle basePriority threads).Rings A p r := by
  have hkept := kept_boot idle basePriority threads
  obtain ⟨c, hc⟩ := settled_boot idle basePriority threads
  obtain ⟨levels, hs, hf, hR⟩ := hc.tidy.filed
  have hfree : ∀ t, t ∉ hs := by
    intro t ht
    have := (hf.isListedHolder_iff t).2 ht
    rw [isListedHolder_boot] at this
    cases this
  have hbase' : ∀ t ∈ A, (boot idle basePriority threads).basePriority t = p := by
    rw [hkept.basePriority]
    exact hbase
  have hidle' : (boot idle basePriority threads).idleThread = idle := hkept.idleThread
  -- a registered thread is ready, until the first pick
  have hready : ∀ t ∈ A, t ≠ c → (boot idle basePriority threads).state t = .ready := by
    intro t ht htc
    have htidy := tidy_initialise idle basePriority
    obtain ⟨htidy', hw⟩ := htidy.foldl (fun _ t h => h.makeReady (fun _ => 0) t) threads
    obtain ⟨x, hx⟩ := htidy'.start (woken_initialise_vacant hw)
    have hstart : boot idle basePriority threads = (threads.foldl
      (fun s t => (s.makeReady (fun _ => 0) t).1) (initialise idle basePriority)).start := rfl
    have hxc : x = c := by
      rw [← hstart] at hx
      exact Option.some.inj (hx.currentThread.symm.trans hc.currentThread)
    rw [hstart, hx.state, Function.update_of_ne (hxc ▸ htc)]
    refine registered_ready htidy (fun y => ⟨?_, by simp [initialise]⟩) (Or.inl (hreg t ht))
    simp only [initialise, Function.update_apply]
    split <;> decide
  have hcnot : c ∉ levels p := by
    intro hmem
    have hfiled : c ∈ (boot idle basePriority threads).readySet :=
      (hR c).2 (Or.inl (by rwa [hf.base p c hmem]))
    have hrun := hc.running
    rw [hfiled.1] at hrun
    cases hrun
  refine ⟨_, ⟨hbase', fun t _ => heldMask_boot idle basePriority threads t, by rwa [hidle'], ?_⟩,
    ⟨_, ⟨levels, hs, hf, rfl, fun t _ => hfree t⟩, rfl⟩, ?_, fun t => ⟨fun ht => ?_, fun ht => ?_⟩⟩
  · intro t _ hd
    have := (hkept.terminating t).1 hd
    simp [initialise] at this
  · have hnd : ((levels p).filter (· ∈ A)).Nodup := (hf.level p).nodup.filter _
    by_cases hcA : c ∈ A
    · rw [runner_of_mem hc.currentThread hcA]
      exact List.nodup_cons.mpr ⟨fun hm => hcnot (List.mem_filter.mp hm).1, hnd⟩
    · rw [runner_of_not_mem hc.currentThread hcA]
      exact hnd
  · rcases List.mem_append.mp ht with hm | hm
    · simpa using (List.mem_filter.mp hm).2
    · simpa using (List.mem_filter.mp hm).2
  · rw [List.mem_append]
    by_cases htc : t = c
    · subst htc
      left
      rw [runner_of_mem hc.currentThread ht]
      exact List.mem_singleton_self t
    · right
      have hmem := (hR t).1 ⟨hready t ht htc, fun he => hidle (hidle' ▸ he ▸ ht)⟩
      rw [hbase' t ht] at hmem
      exact List.mem_filter.mpr ⟨hmem.resolve_right (hfree t), by simpa using ht⟩

end Sched

/-! ### Slices -/

/-- A core with its time slices. -/
structure Sliced (Tid : Type) where
  core : Core Tid
  /-- The thread of the set that a slice expired on, until the reschedule it pends has been made. -/
  expired : Option Tid
  /-- The threads of the set that earlier slices expired on, oldest first. -/
  served : List Tid

inductive SliceAct (Tid : Type) where
  | core (act : CoreAct Tid)
  /-- The timer interrupt calls `rotate`. -/
  | expire

namespace Sliced

variable {Tid : Type} [DecidableEq Tid] [Fintype Tid]

section

variable (A : Finset Tid)

/-- The threads of the set neither yield nor block nor exit, and they hold nothing. -/
def runsOn (k : Core Tid) : CoreAct Tid → Bool
  | .commitToBlock _ | .yield _ | .threadExit | .hold _ => (k.sched.runner A).isEmpty
  | .remoteFile t _ => t ∉ A
  | _ => true

/-- The step that makes the reschedule. -/
def reschedules : CoreAct Tid → Bool
  | .handlerGuard .. => true
  | _ => false

/-- One step.  The port delivers the reschedule of a slice before the next slice expires. -/
def next (k : Sliced Tid) : SliceAct Tid → Option (Sliced Tid)
  | .core act =>
    if Core.FoldWithin k.core.sched.basePriority act ∧ runsOn A k.core act then
      (k.core.next act).map fun c =>
        if reschedules act then ⟨c, none, k.served ++ k.expired.toList⟩ else { k with core := c }
    else none
  | .expire =>
    if k.core.irqs ≠ [] ∧ k.expired = none then
      some { k with expired := k.core.sched.currentThread.filter (· ∈ A) }
    else none

/-- The running threads at the expiries that found a thread of the set running, oldest first. -/
def log (k : Sliced Tid) : List Tid := k.served ++ k.expired.toList

/-- The condition on a step while a thread `c` of the set runs: no wake of `c` itself is delivered; an
interrupt's or a thread's wake decides only if no expired slice is waiting; and the handler finds `c`
preempted by the matrix exactly if none is. -/
def Serves (k : Sliced Tid) : SliceAct Tid → Prop
  | .core (.wakeReady fold road) => ∀ t policy, k.core.executing = some (.ready t policy) →
      ∀ c ∈ A, k.core.sched.currentThread = some c → t ≠ c ∧
        ((k.core.sched.makeReady fold t).2 = .warranted ∧ policy ≠ .never ∧ road ≠ .deferred →
          k.expired = none ∧ c ∉ k.core.sched.intake)
  | .core (.handlerReady _) => ∀ t chain, k.core.handler = .servicing t chain → t ∈ A →
      k.core.sched.currentThread ≠ some t
  | .core (.handlerGuard ..) => ∀ c ∈ A, k.core.sched.currentThread = some c →
      (k.core.sched.preempted c = true ↔ k.expired = none)
  | _ => True

end

def boot (idle : Tid) (basePriority : Tid → Level) (threads : List Tid) : Sliced Tid where
  core := Core.boot idle basePriority threads
  expired := none
  served := []

/-! ### The ring along a step -/

variable {A : Finset Tid} {p : Level} {k k' : Core Tid} {r : List Tid}

/-- A wake, with the decision it warrants where no expired slice is waiting. -/
theorem rings_setThreadReady {fold : Tid → ℕ} {road : Road} {t : Tid} {policy : Policy} {expired : Option Tid}
    (hi : Core.Inv False k) (hr : k.sched.Rings A p r) (hfold : ∀ t, fold t ≤ k.sched.basePriority t)
    (hok : ∀ c ∈ A, k.sched.currentThread = some c → t ≠ c ∧
      ((k.sched.makeReady fold t).2 = .warranted ∧ policy ≠ .never ∧ road ≠ .deferred →
        expired = none ∧ c ∉ k.sched.intake)) :
    (Core.setThreadReady k.sched fold t policy road).Rings A p r ∧
      ∀ c, expired = some c → c ∈ A → k.sched.currentThread = some c →
        (Core.setThreadReady k.sched fold t policy road).currentThread = some c := by
  obtain ⟨c₀, hc₀⟩ := hi.phase
  have hready : (k.sched.makeReady fold t).1.Rings A p r :=
    hr.makeReady hc₀.tidy fold fun hA hcur => (hok t hA hcur).1 rfl
  obtain ⟨htidy, hw⟩ := hc₀.tidy.makeReady fold t
  unfold Core.setThreadReady
  dsimp only
  split
  · next hdec =>
    refine ⟨hready.decide (hc₀.toConsistent.woken htidy hw) (fun x => ?_) (by decide) (by simp)
      fun hA => ⟨rfl, ?_⟩, fun c hexp hA hcur => ?_⟩
    · rw [hw.basePriority]
      exact hfold x
    · rw [Sched.makeReady_intake hc₀.tidy]
      exact ((hok c₀ hA hc₀.currentThread).2 hdec).2
    · have hnone := ((hok c hA hcur).2 hdec).1
      simp [hexp] at hnone
  · refine ⟨hready, fun c _ _ hcur => ?_⟩
    rw [hw.currentThread]
    exact hcur

/-- The reschedule itself. -/
theorem rings_handlerGuard {fold : Tid → ℕ} {joiners : List Tid} (hi : Core.Inv False k)
    (hr : k.sched.Rings A p r) (hfold : ∀ t, fold t ≤ k.sched.basePriority t)
    (h : k.next (.handlerGuard fold joiners) = some k') :
    ∃ c, k.sched.currentThread = some c ∧
      k'.sched.Rings A p (if c ∈ A ∧ k.sched.preempted c = false then r.rotate 1 else r) := by
  cases Core.effect_of_next h with
  | guard _ hh hs =>
      obtain ⟨hcons, -⟩ := hi.guarded hh
      exact ⟨_, hcons.currentThread, hr.rescheduleGuarded hcons hi.idle hfold hs⟩

/-- **Every step but the reschedule leaves the ring**, and the thread an expired slice waits on stays the
running thread. -/
theorem rings_next {act : CoreAct Tid} {expired : Option Tid} {served : List Tid}
    (hi : Core.Inv False k) (hr : k.sched.Rings A p r)
    (hfold : Core.FoldWithin k.sched.basePriority act) (hruns : runsOn A k act = true)
    (hok : Serves A ⟨k, expired, served⟩ (.core act)) (hguard : reschedules act = false)
    (h : k.next act = some k') :
    k'.sched.Rings A p r ∧ ∀ c, expired = some c → c ∈ A → k.sched.currentThread = some c →
      k'.sched.currentThread = some c := by
  have hp := hr.peers
  -- a thread that yields, blocks, exits or holds is none of the set
  have houtside : ∀ {c}, k.runningThread = some c → (k.sched.runner A).isEmpty = true → c ∉ A := by
    intro c hrun hempty hA
    rw [Sched.runner_of_mem (hi.running hrun).2.2.currentThread hA] at hempty
    cases hempty
  have hother : ∀ {c}, k.runningThread = some c → c ∉ A → ∀ x, expired = some x → x ∈ A →
      k.sched.currentThread = some x → ∀ s : Sched Tid, s.currentThread = some x := by
    intro c hrun hnot x _ hA hcur
    rw [(hi.running hrun).2.2.currentThread, Option.some.injEq] at hcur
    exact absurd (hcur ▸ hA) hnot
  cases Core.effect_of_next h with
  | irqEnter | irqReturn | refused | unparked | claimed | enter | prev | switch => exact ⟨hr, fun _ _ _ => id⟩
  | wake | look =>
      rw [Core.moveTo_sched]
      exact ⟨hr, fun _ _ _ => id⟩
  | clear =>
      rw [Core.moveTo_sched]
      exact ⟨hr.setDisposition fun _ => by decide, fun _ _ _ => id⟩
  | ready hexec => exact rings_setThreadReady hi hr (hfold _ rfl) (hok _ _ hexec)
  | prepare | unprepare => exact ⟨hr.setDisposition fun _ => by decide, fun _ _ _ => id⟩
  | park hrun hidle hprep =>
      have hnot := houtside hrun hruns
      refine ⟨hr.decide (hi.running hrun).2.2.toConsistent (hfold _ rfl) (by decide)
        (fun _ => ⟨hidle, by simp [hprep]⟩) fun hA => absurd hA hnot, fun x hexp hA hcur => ?_⟩
      exact hother hrun hnot x hexp hA hcur _
  | yield hrun =>
      have hnot := houtside hrun hruns
      refine ⟨hr.decide (hi.running hrun).2.2.toConsistent (hfold _ rfl) (by decide) (by simp)
        fun hA => absurd hA hnot, fun x hexp hA hcur => ?_⟩
      exact hother hrun hnot x hexp hA hcur _
  | exit hrun => exact ⟨hr.setDisposition fun hA => absurd hA (houtside hrun hruns), fun _ _ _ => id⟩
  | @hold c mask hrun =>
      refine ⟨hr.transfer ⟨hp.base, fun x hx => ?_, hp.idle, hp.lives⟩ rfl rfl rfl rfl rfl rfl rfl, fun _ _ _ => id⟩
      have hxc : x ≠ c := fun he => houtside hrun hruns (he ▸ hx)
      simpa [Function.update_of_ne hxc] using hp.held x hx
  | @file t mask =>
      refine ⟨hr.transfer ⟨hp.base, fun x hx => ?_, hp.idle, hp.lives⟩ rfl rfl rfl rfl rfl rfl rfl, fun _ _ _ => id⟩
      have hxt : x ≠ t := by
        rintro rfl
        simp [runsOn, hx] at hruns
      simpa [Function.update_of_ne hxt] using hp.held x hx
  | take | skip | claim | push =>
      exact ⟨hr.transfer ⟨hp.base, hp.held, hp.idle, hp.lives⟩ rfl rfl rfl rfl rfl rfl rfl, fun _ _ _ => id⟩
  | @service t =>
      have htake : (k.sched.takeRequests t).Rings A p r :=
        hr.transfer ⟨hp.base, hp.held, hp.idle, hp.lives⟩ rfl rfl rfl rfl rfl rfl rfl
      dsimp only
      unfold Sched.revokePrepared
      split
      · exact ⟨htake, fun _ _ _ => id⟩
      · exact ⟨htake.setDisposition fun _ => by decide, fun _ _ _ => id⟩
  | @serviced fold t chain _ hh =>
      refine ⟨hr.makeReady hi.tidy fold (hok t chain hh), fun _ _ _ hcur => ?_⟩
      rw [(hi.tidy.makeReady fold t).2.currentThread]
      exact hcur
  | guard => cases hguard

/-! ### The ring along a run -/

/-- The ring has been rotated once for every slice served, and the log is the log of its turns. -/
structure InTurn (A : Finset Tid) (p : Level) (r : List Tid) (k : Sliced Tid) : Prop where
  core : Core.Inv False k.core
  rings : k.core.sched.Rings A p (r.rotate k.served.length)
  turns : Turns r k.served
  waits : ∀ c, k.expired = some c → c ∈ A ∧ k.core.sched.currentThread = some c

omit [Fintype Tid] in
/-- The running thread of the set is the head of the ring. -/
theorem head_rings {s : Sched Tid} {c : Tid} (hr : s.Rings A p r) (hcur : s.currentThread = some c)
    (hA : c ∈ A) : r.head? = some c := by
  obtain ⟨q, -, rfl, -⟩ := hr.of_mem hcur hA
  rfl

variable {m m' : Sliced Tid}

omit [Fintype Tid] in
theorem InTurn.log_turns (hi : InTurn A p r m) : Turns r m.log := by
  unfold log
  cases hexp : m.expired with
  | none => simpa using hi.turns
  | some c =>
      obtain ⟨hA, hcur⟩ := hi.waits c hexp
      exact hi.turns.snoc (head_rings hi.rings hcur hA)

theorem InTurn.next {act : SliceAct Tid} (hi : InTurn A p r m) (hok : Serves A m act)
    (h : m.next A act = some m') : InTurn A p r m' := by
  cases act with
  | expire =>
      simp only [Sliced.next] at h
      split at h <;> cases h
      refine ⟨hi.core, hi.rings, hi.turns, fun c hc => ?_⟩
      simp only [Option.filter_eq_some_iff, decide_eq_true_eq] at hc
      exact ⟨hc.2, hc.1⟩
  | core act =>
      simp only [Sliced.next] at h
      split at h
      · next hguards =>
        obtain ⟨hfold, hruns⟩ := hguards
        obtain ⟨c, hc, rfl⟩ := Option.map_eq_some_iff.1 h
        have hcore : Core.Inv False c := hi.core.next (by simp) hc
        cases hresched : reschedules act with
        | false =>
            obtain ⟨hring, hcur⟩ := rings_next hi.core hi.rings hfold hruns hok hresched hc
            rw [if_neg (by decide)]
            refine ⟨hcore, hring, hi.turns, fun x hx => ?_⟩
            obtain ⟨hA, hx'⟩ := hi.waits x hx
            exact ⟨hA, hcur x hx hA hx'⟩
        | true =>
            rw [if_pos rfl]
            cases act <;> cases hresched
            next fold joiners =>
            obtain ⟨x, hx, hring⟩ := rings_handlerGuard hi.core hi.rings (hfold fold rfl) hc
            refine ⟨hcore, ?_, hi.log_turns, nofun⟩
            -- the ring turns exactly if a slice was waiting
            cases hexp : m.expired with
            | none =>
                have hstay : ¬(x ∈ A ∧ m.core.sched.preempted x = false) := by
                  rintro ⟨hA, hpre⟩
                  have := (hok x hA hx).2 hexp
                  simp [hpre] at this
                rw [if_neg hstay] at hring
                simpa using hring
            | some y =>
                obtain ⟨hA, hy⟩ := hi.waits y hexp
                obtain rfl : x = y := Option.some.inj (hx.symm.trans hy)
                have hpre : m.core.sched.preempted x = false := by
                  by_contra hne
                  have := (hok x hA hx).1 (by simpa using hne)
                  simp [hexp] at this
                rw [if_pos ⟨hA, hpre⟩, List.rotate_rotate] at hring
                simpa using hring
      · cases h

/-- **Rotation is bounded.**  A set of registered threads of one base priority, which hold nothing and
neither yield nor block, is served in turn: among any `n` consecutive expiries that find one of its `n`
threads running, each of them is the running one. -/
theorem rotation_bounded (idle : Tid) (basePriority : Tid → Level) (threads : List Tid)
    (A : Finset Tid) (p : Level) (hreg : ∀ t ∈ A, t ∈ threads) (hidle : idle ∉ A)
    (hbase : ∀ t ∈ A, basePriority t = p) (acts : List (SliceAct Tid)) (k : Sliced Tid)
    (hok : Meets (next A) (Serves A) (boot idle basePriority threads) acts)
    (h : run (next A) (boot idle basePriority threads) acts = some k) (i : ℕ)
    (hi : i + A.card ≤ k.log.length) : ∀ t ∈ A, t ∈ (k.log.drop i).take A.card := by
  obtain ⟨r, hr⟩ := Sched.rings_boot (A := A) (p := p) hreg hidle hbase
  have hcard : r.length = A.card := by
    have hset : r.toFinset = A := by
      ext t
      rw [List.mem_toFinset, hr.mem]
    rw [← hset, List.toFinset_card_of_nodup hr.nodup]
  have hstart : InTurn A p r (boot idle basePriority threads) := by
    refine ⟨Core.inv_boot idle basePriority threads, ?_, turns_nil r, nofun⟩
    show (Sched.boot idle basePriority threads).Rings A p (r.rotate 0)
    rw [List.rotate_zero]
    exact hr
  have hturn : InTurn A p r k := run_invariant_of_meets (fun _ _ _ hi hok h => hi.next hok h)
    hstart hok h
  intro t ht
  rw [← hcard] at hi ⊢
  exact hturn.log_turns.mem_window ((hr.mem t).2 ht) hi

/-! ### A slice and a wake in one interrupt -/

/-- The idle thread, a more urgent thread, and two peers. -/
def twoPeers : Fin 4 → Level := fun t => if t = 0 then 31 else if t = 1 then 3 else 5

/-- The more urgent thread parks; a slice of the peer that runs then expires. -/
def parksAndExpires : List (SliceAct (Fin 4)) :=
  [.core .prepare, .core (.commitToBlock fun _ => 0), .core .irqEnter, .expire]

/-- The port's handler. -/
def handler : List (SliceAct (Fin 4)) :=
  [.core .handlerEnter, .core .handlerTake, .core .handlerPrev, .core (.handlerGuard (fun _ => 0) []),
    .core .handlerSwitch]

/-- The interrupt that expires the slice also wakes the more urgent thread. -/
def wakesUrgent : List (SliceAct (Fin 4)) :=
  [.core (.wake 1 .automatic), .core .wakeClear, .core .wakeLook,
    .core (.wakeReady (fun _ => 0) .interrupt)]

/-- **A slice is lost to a preemption in the same interrupt.**  The wake decides first and files the running
peer at the front; the reschedule of the slice then finds the more urgent thread.  Once that has parked, the
same peer runs, and it is the one the next slice expires on. -/
theorem slice_lost_to_preemption :
    ∃ k, run (next {2, 3}) (boot (0 : Fin 4) twoPeers [1, 2, 3])
        (parksAndExpires ++ wakesUrgent ++ [.core .irqReturn] ++ handler ++ parksAndExpires) = some k ∧
      k.log = [2, 2] ∧ ¬ ∀ t ∈ ({2, 3} : Finset (Fin 4)), t ∈ (k.log.drop 0).take 2 := by
  have hrun : (run (next {2, 3}) (boot (0 : Fin 4) twoPeers [1, 2, 3])
      (parksAndExpires ++ wakesUrgent ++ [.core .irqReturn] ++ handler ++ parksAndExpires)).map log =
        some [2, 2] := rfl
  obtain ⟨k, hk, hlog⟩ := Option.map_eq_some_iff.mp hrun
  refine ⟨k, hk, hlog, ?_⟩
  rw [hlog]
  decide

/-- Served at once, the slices go round. -/
theorem rotation_bounded_served :
    ∃ k, run (next {2, 3}) (boot (0 : Fin 4) twoPeers [1, 2, 3])
        (parksAndExpires ++ [.core .irqReturn] ++ handler ++ [.core .irqEnter, .expire]) = some k ∧
      k.log = [2, 3] ∧ ∀ t ∈ ({2, 3} : Finset (Fin 4)), t ∈ k.log := by
  have hrun : (run (next {2, 3}) (boot (0 : Fin 4) twoPeers [1, 2, 3])
      (parksAndExpires ++ [.core .irqReturn] ++ handler ++ [.core .irqEnter, .expire])).map log =
        some [2, 3] := rfl
  obtain ⟨k, hk, hlog⟩ := Option.map_eq_some_iff.mp hrun
  refine ⟨k, hk, hlog, ?_⟩
  have hbound := rotation_bounded 0 twoPeers [1, 2, 3] {2, 3} 5 (by decide) (by decide) (by decide) _ k ?_
    hk 0 (by rw [hlog]; decide)
  · rw [hlog] at hbound ⊢
    exact hbound
  · refine ⟨trivial, trivial, trivial, trivial, trivial, trivial, trivial, trivial, ?_, trivial, trivial,
      trivial, trivial⟩
    intro c hc hcur
    cases hcur
    exact ⟨nofun, nofun⟩

end Sliced

end Cyros.Kernel
