import Cyros.Kernel.ReadyStructure

/-!
# Wakes and switches

What the functions of a switch do to the threads' states, over the ready structure of
`Kernel.ReadyStructure`.

`Woken s s'` is all that a wake can do, whichever function makes it: a thread becomes ready that was
not done, or nothing happens; a disposition that was not terminating is cleared, or nothing happens.
`Tidy s` says that exactly the ready threads other than the idle thread are filed.  Wakes keep it
(`Tidy.makeReady`, `Tidy.drainIntake`), a departure leaves a core on which no thread runs
(`Tidy.depart`), and the pick makes one of the ready threads the running one (`Tidy.runNext`).
-/

namespace Cyros.Kernel.Sched

open Cyros.Lib.IntrusiveQueue

variable {Tid : Type}

/-- The ready threads of the core that belong in the ready structure. -/
def readySet (s : Sched Tid) : Set Tid := {t | s.state t = .ready ∧ t ≠ s.idleThread}

/-- Exactly the ready threads are filed, and the idle thread is always runnable. -/
structure Tidy (s : Sched Tid) : Prop where
  filed : FiledAs s s.readySet
  idle : s.state s.idleThread = .ready ∨ s.state s.idleThread = .running

/-- All that a wake can do. -/
structure Woken (s s' : Sched Tid) : Prop where
  currentThread : s'.currentThread = s.currentThread
  idleThread : s'.idleThread = s.idleThread
  basePriority : s'.basePriority = s.basePriority
  heldMask : s'.heldMask = s.heldMask
  raised : s'.raised = s.raised
  state : ∀ t, s'.state t = s.state t ∨
    (s'.state t = .ready ∧ s.state t ≠ .terminated ∧ s.disposition t ≠ .terminating)
  disposition : ∀ t, s'.disposition t = s.disposition t ∨
    (s'.disposition t = .none ∧ s.disposition t ≠ .terminating)

theorem Woken.refl (s : Sched Tid) : Woken s s :=
  ⟨rfl, rfl, rfl, rfl, rfl, fun _ => Or.inl rfl, fun _ => Or.inl rfl⟩

theorem Woken.of_sameTcbs {s s' : Sched Tid} (h : SameTcbs s s') : Woken s s' :=
  ⟨h.currentThread, h.idleThread, h.basePriority, h.heldMask, h.raised,
    fun t => Or.inl (by rw [h.state]), fun t => Or.inl (by rw [h.disposition])⟩

/-- A wake leaves a terminating thread's disposition alone. -/
theorem Woken.terminating_iff {s s' : Sched Tid} (h : Woken s s') (t : Tid) :
    s'.disposition t = .terminating ↔ s.disposition t = .terminating := by
  rcases h.disposition t with ht | ⟨ht, hne⟩
  · rw [ht]
  · simp [ht, hne]

theorem Woken.terminated_iff {s s' : Sched Tid} (h : Woken s s') (t : Tid) :
    s'.state t = .terminated ↔ s.state t = .terminated := by
  rcases h.state t with ht | ⟨ht, hne, -⟩
  · rw [ht]
  · simp [ht, hne]

theorem Woken.trans {s s' s'' : Sched Tid} (h : Woken s s') (h' : Woken s' s'') : Woken s s'' := by
  refine ⟨h'.1.trans h.1, h'.2.trans h.2, h'.3.trans h.3, h'.4.trans h.4, h'.5.trans h.5,
    fun t => ?_, fun t => ?_⟩
  · rcases h'.state t with ht | ⟨ht, hstate, hdisp⟩
    · rw [ht]
      exact h.state t
    · exact Or.inr ⟨ht, fun hs => hstate ((h.terminated_iff t).2 hs),
        fun hd => hdisp ((h.terminating_iff t).2 hd)⟩
  · rcases h'.disposition t with ht | ⟨ht, hdisp⟩
    · rw [ht]
      exact h.disposition t
    · exact Or.inr ⟨ht, fun hd => hdisp ((h.terminating_iff t).2 hd)⟩

/-- No wake makes a thread run. -/
theorem Woken.running {s s' : Sched Tid} (h : Woken s s') {t : Tid} (ht : s'.state t = .running) :
    s.state t = .running := by
  rcases h.state t with h | ⟨h, -⟩
  · rwa [← h]
  · rw [h] at ht
    cases ht

/-- A thread that is running or ready stays so. -/
theorem Woken.live {s s' : Sched Tid} (h : Woken s s') {t : Tid}
    (ht : s.state t = .running ∨ s.state t = .ready) :
    s'.state t = .running ∨ s'.state t = .ready := by
  rcases h.state t with h | ⟨h, -⟩
  · rwa [h]
  · exact Or.inr h

/-- The ready structure and the states may be read from another record with the same fields. -/
theorem Tidy.transfer {s s' : Sched Tid} (h : Tidy s) (hnext : s'.next = s.next)
    (hholderNext : s'.holderNext = s.holderNext) (hmatrix : s'.matrix = s.matrix)
    (hholders : s'.holders = s.holders) (hbitmap : s'.bitmap = s.bitmap)
    (hbase : s'.basePriority = s.basePriority) (hstate : s'.state = s.state)
    (hidle : s'.idleThread = s.idleThread) : Tidy s' := by
  refine ⟨?_, by rw [hstate, hidle]; exact h.idle⟩
  have hset : s'.readySet = s.readySet := by simp only [readySet, hstate, hidle]
  rw [hset]
  exact h.filed.transfer hnext hholderNext hmatrix hholders hbitmap hbase

variable [DecidableEq Tid]

theorem Tidy.setDisposition {s : Sched Tid} (h : Tidy s) (t : Tid) (d : Disposition) :
    Tidy (s.setDisposition t d) :=
  h.transfer rfl rfl rfl rfl rfl rfl rfl rfl

/-! ### Wakes -/

omit [DecidableEq Tid] in
theorem readySet_of_sameTcbs {s s' : Sched Tid} (h : SameTcbs s s') : s'.readySet = s.readySet := by
  simp only [readySet, h.state, h.idleThread]

theorem admitThread_state (s : Sched Tid) (t : Tid) (atFront : Bool) :
    (s.admitThread t atFront).state = Function.update s.state t .ready :=
  (sameTcbs_admitThread s t atFront).state

/-- An admission of a thread that is not ready keeps the ready structure tidy. -/
theorem Tidy.admitThread {s : Sched Tid} (h : Tidy s) {t : Tid} (ht : t ∉ s.readySet) (atFront : Bool) :
    Tidy (s.admitThread t atFront) := by
  have hsame := sameTcbs_admitThread s t atFront
  have hidle : (s.admitThread t atFront).idleThread = s.idleThread := hsame.idleThread
  by_cases hti : t = s.idleThread
  · subst hti
    rw [admitThread_idleThread]
    refine ⟨?_, Or.inl (Function.update_self ..)⟩
    have hset : (s.setState s.idleThread .ready).readySet = s.readySet := by
      ext x
      simp only [readySet, setState, Set.mem_ofPred_eq]
      by_cases hx : x = s.idleThread <;> simp [hx]
    rw [hset]
    exact h.filed.transfer rfl rfl rfl rfl rfl rfl
  · refine ⟨?_, ?_⟩
    · have hset : (s.admitThread t atFront).readySet = insert t s.readySet := by
        ext x
        simp only [readySet, hidle, admitThread_state, Set.mem_ofPred_eq, Set.mem_insert_iff]
        by_cases hx : x = t
        · simp [hx, hti]
        · simp [hx]
      rw [hset]
      exact h.filed.admitThread ht hti atFront
    · rw [hidle, admitThread_state, Function.update_of_ne (Ne.symm hti)]
      exact h.idle

theorem woken_admitThread {s : Sched Tid} {t : Tid} (hstate : s.state t ≠ .terminated)
    (hdisp : s.disposition t ≠ .terminating) (atFront : Bool) : Woken s (s.admitThread t atFront) := by
  have hsame := sameTcbs_admitThread s t atFront
  refine ⟨hsame.currentThread, hsame.idleThread, hsame.basePriority, hsame.heldMask, hsame.raised,
    fun x => ?_, fun x => Or.inl (by rw [hsame.disposition]; rfl)⟩
  rw [admitThread_state]
  by_cases hx : x = t
  · subst hx
    exact Or.inr ⟨Function.update_self .., hstate, hdisp⟩
  · exact Or.inl (Function.update_of_ne hx _ _)

theorem woken_setDisposition {s : Sched Tid} {t : Tid} (h : s.disposition t ≠ .terminating) :
    Woken s (s.setDisposition t .none) := by
  refine ⟨rfl, rfl, rfl, rfl, rfl, fun _ => Or.inl rfl, fun x => ?_⟩
  by_cases hx : x = t
  · subst hx
    exact Or.inr ⟨Function.update_self .., h⟩
  · exact Or.inl (Function.update_of_ne hx _ _)

variable [Fintype Tid]

/-- **A wake keeps the ready structure tidy**, also when it readies the running thread. -/
theorem Tidy.makeReady {s : Sched Tid} (h : Tidy s) (fold : Tid → ℕ) (t : Tid) :
    Tidy (s.makeReady fold t).1 ∧ Woken s (s.makeReady fold t).1 := by
  obtain ⟨-, heq⟩ | ⟨-, hfiled, hsame⟩ | ⟨hstate, hdisp, ht, heq⟩ := h.filed.makeReady fold t
  · rw [heq]
    exact ⟨h, Woken.refl s⟩
  · refine ⟨⟨?_, ?_⟩, Woken.of_sameTcbs hsame⟩
    · rwa [readySet_of_sameTcbs hsame]
    · rw [hsame.state, hsame.idleThread]
      exact h.idle
  · rw [heq]
    exact ⟨h.admitThread ht false, woken_admitThread hstate hdisp false⟩

/-- A wake changes no state but that of the thread it wakes. -/
theorem makeReady_state_ne {s : Sched Tid} (h : Tidy s) (fold : Tid → ℕ) {t x : Tid} (hx : x ≠ t) :
    (s.makeReady fold t).1.state x = s.state x := by
  obtain ⟨-, heq⟩ | ⟨-, -, hsame⟩ | ⟨-, -, -, heq⟩ := h.filed.makeReady fold t
  · rw [heq]
  · rw [hsame.state]
  · rw [heq, admitThread_state, Function.update_of_ne hx]

theorem Tidy.globalReadyThread {s : Sched Tid} (h : Tidy s) (fold : Tid → ℕ) (t : Tid) :
    Tidy (s.globalReadyThread fold t) ∧ Woken s (s.globalReadyThread fold t) := by
  simp only [Sched.globalReadyThread]
  split
  · exact ⟨h, Woken.refl s⟩
  · next hdone =>
    rw [not_or] at hdone
    have hd := h.setDisposition t .none
    have hw := woken_setDisposition hdone.2
    split
    · exact ⟨hd, hw⟩
    · exact ⟨(hd.makeReady fold t).1, hw.trans (hd.makeReady fold t).2⟩

omit [Fintype Tid] in
theorem Tidy.revokePrepared {s : Sched Tid} (h : Tidy s) (t : Tid) :
    Tidy (s.revokePrepared t) ∧ Woken s (s.revokePrepared t) := by
  unfold Sched.revokePrepared
  split
  · exact ⟨h, Woken.refl s⟩
  · next hd => exact ⟨h.setDisposition t .none, woken_setDisposition hd⟩

omit [Fintype Tid] in
theorem Tidy.takeRequests {s : Sched Tid} (h : Tidy s) (t : Tid) :
    Tidy (s.takeRequests t) ∧ Woken s (s.takeRequests t) :=
  ⟨h.transfer rfl rfl rfl rfl rfl rfl rfl rfl,
    ⟨rfl, rfl, rfl, rfl, rfl, fun _ => Or.inl rfl, fun _ => Or.inl rfl⟩⟩

theorem Tidy.serviceIntake {s : Sched Tid} (h : Tidy s) (fold : Tid → ℕ) (t : Tid) :
    Tidy (s.serviceIntake fold t) ∧ Woken s (s.serviceIntake fold t) := by
  obtain ⟨h₁, hw₁⟩ := h.takeRequests t
  unfold Sched.serviceIntake
  split
  · obtain ⟨h₂, hw₂⟩ := h₁.revokePrepared t
    obtain ⟨h₃, hw₃⟩ := h₂.makeReady fold t
    exact ⟨h₃, hw₁.trans (hw₂.trans hw₃)⟩
  · exact ⟨h₁, hw₁⟩

omit [DecidableEq Tid] [Fintype Tid] in
/-- A fold of wakes is a wake. -/
theorem Tidy.foldl {β : Type} {f : Sched Tid → β → Sched Tid}
    (hf : ∀ s b, Tidy s → Tidy (f s b) ∧ Woken s (f s b)) {s : Sched Tid} (h : Tidy s) (bs : List β) :
    Tidy (bs.foldl f s) ∧ Woken s (bs.foldl f s) := by
  induction bs generalizing s with
  | nil => exact ⟨h, Woken.refl s⟩
  | cons b bs ih =>
      obtain ⟨h₁, hw₁⟩ := hf s b h
      obtain ⟨h₂, hw₂⟩ := ih h₁
      exact ⟨h₂, hw₁.trans hw₂⟩

theorem Tidy.drainIntake {s : Sched Tid} (h : Tidy s) (fold : Tid → ℕ) :
    Tidy (s.drainIntake fold) ∧ Woken s (s.drainIntake fold) := by
  have h₀ : Tidy { s with intake := [] } := h.transfer rfl rfl rfl rfl rfl rfl rfl rfl
  have hw₀ : Woken s { s with intake := [] } :=
    ⟨rfl, rfl, rfl, rfl, rfl, fun _ => Or.inl rfl, fun _ => Or.inl rfl⟩
  obtain ⟨h₁, hw₁⟩ := h₀.foldl (fun s t h => h.serviceIntake fold t) s.intake.reverse
  exact ⟨h₁, hw₀.trans hw₁⟩

/-! ### Departures -/

/-- The state in which a departure leaves the thread. -/
def leaves : Departure → ThreadState
  | .yielded | .preempted => .ready
  | .parked => .blocked
  | .exited => .terminated

/-- The core between a departure and the pick: `c` has left for `reason`, and nobody runs. -/
structure Departed (s s' : Sched Tid) (c : Tid) (reason : Departure) : Prop where
  tidy : Tidy s'
  vacant : ∀ t, s'.state t ≠ .running
  currentThread : s'.currentThread = s.currentThread
  idleThread : s'.idleThread = s.idleThread
  basePriority : s'.basePriority = s.basePriority
  heldMask : s'.heldMask = s.heldMask
  raised : s'.raised = if reason = .exited then c :: s.raised else s.raised
  own : s'.state c = leaves reason
  /-- Other threads may have been made ready, by a termination. -/
  state : ∀ t, t ≠ c → s'.state t = s.state t ∨
    (s'.state t = .ready ∧ s.state t ≠ .terminated ∧ s.disposition t ≠ .terminating)
  terminating : ∀ t, s'.disposition t = .terminating ↔ s.disposition t = .terminating

omit [Fintype Tid] in
theorem Tidy.setState_running {s : Sched Tid} (h : Tidy s) {c : Tid} (hc : s.state c = .running)
    (hidle : c ≠ s.idleThread) {x : ThreadState} (hx : x ≠ .ready) : Tidy (s.setState c x) := by
  have hset : (s.setState c x).readySet = s.readySet := by
    ext t
    simp only [readySet, setState, Set.mem_ofPred_eq]
    by_cases ht : t = c
    · simp [ht, hx, hc]
    · simp [ht]
  refine ⟨?_, ?_⟩
  · rw [hset]
    exact h.filed.transfer rfl rfl rfl rfl rfl rfl
  · simp only [setState, Function.update_of_ne (Ne.symm hidle)]
    exact h.idle

omit [DecidableEq Tid] [Fintype Tid] in
theorem leaves_ne_running (reason : Departure) : leaves reason ≠ .running := by
  cases reason <;> decide

omit [Fintype Tid] in
/-- A core on which only `c` ran, after `c` was filed or set aside. -/
theorem departed_of_state {s s' : Sched Tid} {c : Tid} {reason : Departure} (htidy : Tidy s')
    (honly : ∀ t, s.state t = .running → t = c)
    (hstate : s'.state = Function.update s.state c (leaves reason))
    (hcur : s'.currentThread = s.currentThread) (hidle : s'.idleThread = s.idleThread)
    (hbase : s'.basePriority = s.basePriority) (hheld : s'.heldMask = s.heldMask)
    (hraised : s'.raised = if reason = .exited then c :: s.raised else s.raised)
    (hdisp : ∀ t, s'.disposition t = .terminating ↔ s.disposition t = .terminating) :
    Departed s s' c reason := by
  refine ⟨htidy, fun t ht => ?_, hcur, hidle, hbase, hheld, hraised, ?_, fun t ht => ?_, hdisp⟩
  · rw [hstate] at ht
    by_cases htc : t = c
    · subst htc
      exact leaves_ne_running reason (by simpa using ht)
    · rw [Function.update_of_ne htc] at ht
      exact htc (honly t ht)
  · rw [hstate, Function.update_self]
  · exact Or.inl (by rw [hstate, Function.update_of_ne ht])

/-- **A departure of the running thread leaves a core on which nobody runs.** -/
theorem Tidy.depart {s : Sched Tid} (h : Tidy s) {c : Tid} (hc : s.state c = .running)
    (honly : ∀ t, s.state t = .running → t = c) (fold : Tid → ℕ) (joiners : List Tid)
    (reason : Departure) (hpark : reason = .parked → c ≠ s.idleThread ∧ s.disposition c ≠ .terminating)
    (hexit : reason = .exited → c ≠ s.idleThread) :
    Departed s (s.depart fold joiners c reason) c reason := by
  have hcR : c ∉ s.readySet := fun hr => by simp [readySet, hc] at hr
  cases reason with
  | yielded =>
      have hsame := sameTcbs_admitThread s c false
      exact departed_of_state (h.admitThread hcR false) honly (admitThread_state s c false) hsame.currentThread
        hsame.idleThread hsame.basePriority hsame.heldMask hsame.raised
        fun t => by rw [Sched.depart, hsame.disposition]; rfl
  | preempted =>
      have hsame := sameTcbs_admitThread s c true
      exact departed_of_state (h.admitThread hcR true) honly (admitThread_state s c true) hsame.currentThread
        hsame.idleThread hsame.basePriority hsame.heldMask hsame.raised
        fun t => by rw [Sched.depart, hsame.disposition]; rfl
  | parked =>
      obtain ⟨hidle, hdisp⟩ := hpark rfl
      have hd := h.setDisposition c .none
      exact departed_of_state (hd.setState_running hc hidle (by decide)) honly rfl rfl rfl rfl rfl rfl
        (woken_setDisposition hdisp).terminating_iff
  | exited =>
      have hidle := hexit rfl
      -- retired first, so the wakes of its joiners find nobody running
      have ht : Tidy { s.setState c .terminated with raised := c :: s.raised } :=
        (h.setState_running hc hidle (by decide)).transfer rfl rfl rfl rfl rfl rfl rfl rfl
      have hdep : Departed s { s.setState c .terminated with raised := c :: s.raised } c .exited :=
        departed_of_state ht honly rfl rfl rfl rfl rfl rfl fun t => Iff.rfl
      obtain ⟨ht', hw⟩ := ht.foldl (fun s j h => h.globalReadyThread fold j) joiners
      refine ⟨ht', fun t hrun => hdep.vacant t (hw.running hrun), hw.currentThread, hw.idleThread,
        hw.basePriority, hw.heldMask, hw.raised, (hw.terminated_iff c).2 hdep.own, fun t htc => ?_,
        hw.terminating_iff⟩
      rcases hw.state t with hs | ⟨hs, hst, hd⟩
      · exact Or.inl (hs.trans (Function.update_of_ne htc _ _))
      · refine Or.inr ⟨hs, ?_, hd⟩
        simpa [setState, Function.update_of_ne htc] using hst

/-! ### The pick -/

/-- The pick `p` has become the running thread. -/
structure Picked (s s' : Sched Tid) (p : Tid) : Prop where
  tidy : Tidy s'
  ready : s.state p = .ready
  currentThread : s'.currentThread = some p
  state : s'.state = Function.update s.state p .running
  disposition : s'.disposition = s.disposition
  idleThread : s'.idleThread = s.idleThread
  basePriority : s'.basePriority = s.basePriority
  heldMask : s'.heldMask = s.heldMask
  raised : s'.raised = s.raised

omit [Fintype Tid] in
/-- A pick of `p` out of what was filed, made the running thread. -/
theorem picked_setThreadRunning {s s₁ : Sched Tid} {p : Tid} (h : Tidy s)
    (hsame : SameTcbs s s₁) (hready : s.state p = .ready)
    (hfiled : FiledAs s₁ (s.readySet \ {p})) : Picked s (s₁.setThreadRunning p) p := by
  have hstate : (s₁.setThreadRunning p).state = Function.update s.state p .running := by
    simp only [setThreadRunning, setState, hsame.state]
  refine ⟨⟨?_, ?_⟩, hready, rfl, hstate, hsame.disposition, hsame.idleThread, hsame.basePriority,
    hsame.heldMask, hsame.raised⟩
  · have hset : (s₁.setThreadRunning p).readySet = s.readySet \ {p} := by
      ext t
      simp only [readySet, hstate, Set.mem_ofPred_eq, Set.mem_sdiff, Set.mem_singleton_iff]
      rw [show (s₁.setThreadRunning p).idleThread = s.idleThread from hsame.idleThread]
      by_cases ht : t = p
      · simp [ht]
      · simp [ht]
    rw [hset]
    exact hfiled.transfer rfl rfl rfl rfl rfl rfl
  · rw [hstate, show (s₁.setThreadRunning p).idleThread = s.idleThread from hsame.idleThread]
    by_cases hi : s.idleThread = p
    · exact Or.inr (by rw [hi, Function.update_self])
    · rw [Function.update_of_ne hi]
      exact h.idle

omit [Fintype Tid] in
/-- With no pick the idle thread runs, which is ready since nobody does. -/
theorem picked_idleThread {s s₁ : Sched Tid} (h : Tidy s) (hvacant : ∀ t, s.state t ≠ .running)
    (hsame : SameTcbs s s₁) (hfiled : FiledAs s₁ s.readySet) :
    Picked s (s₁.setThreadRunning s₁.idleThread) s₁.idleThread := by
  have hidle : s₁.idleThread = s.idleThread := hsame.idleThread
  rw [hidle]
  refine picked_setThreadRunning h hsame (h.idle.resolve_right (hvacant _)) ?_
  rw [Set.sdiff_singleton_eq_self fun hr => hr.2 rfl]
  exact hfiled

/-- **The pick makes one of the ready threads the running one.** -/
theorem Tidy.runNext {s : Sched Tid} (h : Tidy s) (hvacant : ∀ t, s.state t ≠ .running)
    (fold : Tid → ℕ) : ∃ p, Picked s (s.runNext fold) p := by
  have hpick := h.filed.pickNext fold
  unfold Sched.runNext
  cases heq : s.pickNext fold with
  | mk picked s₁ =>
    rw [heq] at hpick
    obtain ⟨hsame, hpick⟩ := hpick
    cases picked with
    | some t => exact ⟨t, picked_setThreadRunning h hsame hpick.1.1 hpick.2⟩
    | none => exact ⟨_, picked_idleThread h hvacant hsame hpick⟩

/-! ### Whole switches -/

/-- The core inside a switch or a wake: `c` is current, and runs or has just been made ready. -/
structure Consistent (s : Sched Tid) (c : Tid) : Prop where
  tidy : Tidy s
  currentThread : s.currentThread = some c
  only : ∀ t, s.state t = .running → t = c
  live : s.state c = .running ∨ s.state c = .ready

/-- The core outside the scheduler: `c` is current and it is the one running thread. -/
structure Settled (s : Sched Tid) (c : Tid) : Prop extends Consistent s c where
  running : s.state c = .running

omit [DecidableEq Tid] [Fintype Tid] in
theorem Consistent.woken {s s' : Sched Tid} {c : Tid} (h : Consistent s c) (htidy : Tidy s')
    (hw : Woken s s') : Consistent s' c :=
  ⟨htidy, hw.currentThread.trans h.currentThread, fun t ht => h.only t (hw.running ht), hw.live h.live⟩

omit [Fintype Tid] in
/-- A pick on a core on which nobody runs settles it. -/
theorem Picked.settled {s s' : Sched Tid} {p : Tid} (h : Picked s s' p)
    (hvacant : ∀ t, s.state t ≠ .running) : Settled s' p := by
  have hrun : s'.state p = .running := by rw [h.state, Function.update_self]
  refine ⟨⟨h.tidy, h.currentThread, fun t ht => ?_, Or.inl hrun⟩, hrun⟩
  by_contra htp
  rw [h.state, Function.update_of_ne htp] at ht
  exact hvacant t ht

/-- What a step leaves of the threads that are done: none comes back, and none is added. -/
structure Kept (s s' : Sched Tid) : Prop where
  idleThread : s'.idleThread = s.idleThread
  basePriority : s'.basePriority = s.basePriority
  raised : s'.raised = s.raised
  terminated : ∀ t, s'.state t = .terminated ↔ s.state t = .terminated
  terminating : ∀ t, s'.disposition t = .terminating ↔ s.disposition t = .terminating

omit [DecidableEq Tid] [Fintype Tid] in
theorem Kept.trans {s s' s'' : Sched Tid} (h : Kept s s') (h' : Kept s' s'') : Kept s s'' :=
  ⟨h'.1.trans h.1, h'.2.trans h.2, h'.3.trans h.3, fun t => (h'.4 t).trans (h.4 t),
    fun t => (h'.5 t).trans (h.5 t)⟩

omit [DecidableEq Tid] [Fintype Tid] in
theorem Woken.kept {s s' : Sched Tid} (h : Woken s s') : Kept s s' :=
  ⟨h.idleThread, h.basePriority, h.raised, h.terminated_iff, h.terminating_iff⟩

omit [Fintype Tid] in
theorem Picked.kept {s s' : Sched Tid} {p : Tid} (h : Picked s s' p) : Kept s s' := by
  refine ⟨h.idleThread, h.basePriority, h.raised, fun t => ?_, fun t => by rw [h.disposition]⟩
  by_cases ht : t = p
  · rw [ht, h.state, Function.update_self, h.ready]
    decide
  · rw [h.state, Function.update_of_ne ht]

omit [Fintype Tid] in
theorem Departed.kept {s s' : Sched Tid} {c : Tid} {reason : Departure}
    (h : Departed s s' c reason) (hreason : reason ≠ .exited) (hc : s.state c = .running) :
    Kept s s' := by
  refine ⟨h.idleThread, h.basePriority, by rw [h.raised, if_neg hreason], fun t => ?_, h.terminating⟩
  by_cases ht : t = c
  · rw [ht, h.own, hc]
    cases reason <;> simp [leaves] at hreason ⊢
  · rcases h.state t ht with hs | ⟨hs, hne, -⟩
    · rw [hs]
    · simp [hs, hne]

omit [DecidableEq Tid] [Fintype Tid] in
theorem departureOf_ne_parked (s : Sched Tid) (t : Tid) : s.departureOf t ≠ .parked := by
  unfold Sched.departureOf
  split
  · decide
  · split <;> decide

omit [DecidableEq Tid] [Fintype Tid] in
theorem departureOf_eq_exited_iff {s : Sched Tid} {t : Tid} :
    s.departureOf t = .exited ↔ s.disposition t = .terminating := by
  unfold Sched.departureOf
  split
  · next hd => simp [hd]
  · next hd => split <;> simp [hd]

/-- The core when the pick of a switch is made: `c` has departed, or nobody was running. -/
inductive Vacates (s : Sched Tid) (fold : Tid → ℕ) (joiners : List Tid) (c : Tid) (reason : Departure) :
    Sched Tid → Prop
  | departs (hrun : s.state c = .running) (hdep : Departed s (s.depart fold joiners c reason) c reason) :
      Vacates s fold joiners c reason (s.depart fold joiners c reason)
  | nobody (htidy : Tidy s) (hvacant : ∀ t, s.state t ≠ .running) : Vacates s fold joiners c reason s

section Vacates

variable {s s' s₁ : Sched Tid} {fold : Tid → ℕ} {joiners : List Tid} {c : Tid} {reason : Departure}

theorem Vacates.tidy_vacant (h : Vacates s fold joiners c reason s₁) :
    Tidy s₁ ∧ ∀ t, s₁.state t ≠ .running := by
  cases h with
  | departs _ hdep => exact ⟨hdep.tidy, hdep.vacant⟩
  | nobody htidy hvacant => exact ⟨htidy, hvacant⟩

theorem Vacates.kept (h : Vacates s fold joiners c reason s₁) (hreason : reason ≠ .exited) : Kept s s₁ := by
  cases h with
  | departs hrun hdep => exact hdep.kept hreason hrun
  | nobody => exact ⟨rfl, rfl, rfl, fun _ => Iff.rfl, fun _ => Iff.rfl⟩

theorem Consistent.vacates (h : Consistent s c) (fold : Tid → ℕ) (joiners : List Tid)
    (hpark : reason = .parked → c ≠ s.idleThread ∧ s.disposition c ≠ .terminating)
    (hexit : reason = .exited → c ≠ s.idleThread) :
    Vacates s fold joiners c reason
      (if s.state c = .running then s.depart fold joiners c reason else s) := by
  split
  · next hrun => exact .departs hrun (h.tidy.depart hrun h.only fold joiners reason hpark hexit)
  · next hrun => exact .nobody h.tidy fun t ht => hrun (h.only t ht ▸ ht)

/-- A decision is a pick once the intake is drained and nobody runs. -/
theorem Consistent.decide_vacates (h : Consistent s c) (fold : Tid → ℕ) (hreason : reason ≠ .exited)
    (hpark : reason = .parked → c ≠ s.idleThread ∧ s.disposition c ≠ .terminating) :
    ∃ s₁, Vacates (s.drainIntake fold) fold [] c reason s₁ ∧ s.decide fold reason = s₁.runNext fold := by
  obtain ⟨htidy, hw⟩ := h.tidy.drainIntake fold
  have h₁ := h.woken htidy hw
  refine ⟨_, h₁.vacates fold [] (fun hr => ?_) fun hr => absurd hr hreason, ?_⟩
  · obtain ⟨hidle, hdisp⟩ := hpark hr
    rw [hw.idleThread]
    exact ⟨hidle, fun hd => hdisp ((hw.terminating_iff c).1 hd)⟩
  · simp only [Sched.decide, h₁.currentThread]

/-- So is the guarded half of the handler. -/
theorem Consistent.rescheduleGuarded_vacates (h : Consistent s c)
    (hidle : s.disposition c = .terminating → c ≠ s.idleThread)
    (hs : s.rescheduleGuarded fold joiners c = some s') :
    ∃ s₁, Vacates s fold joiners c (s.departureOf c) s₁ ∧ s' = s₁.runNext fold := by
  refine ⟨_, h.vacates fold joiners (fun hr => absurd hr (departureOf_ne_parked s c))
    fun hr => hidle (departureOf_eq_exited_iff.1 hr), ?_⟩
  unfold Sched.rescheduleGuarded at hs
  split_ifs at hs ⊢ <;> cases hs <;> rfl

end Vacates

/-- **The decision settles the core**, and keeps every thread that is done as it was. -/
theorem Consistent.decide {s : Sched Tid} {c : Tid} (h : Consistent s c) (fold : Tid → ℕ)
    (reason : Departure) (hreason : reason ≠ .exited)
    (hpark : reason = .parked → c ≠ s.idleThread ∧ s.disposition c ≠ .terminating) :
    ∃ p, Settled (s.decide fold reason) p ∧ Kept s (s.decide fold reason) := by
  have hw := (h.tidy.drainIntake fold).2
  obtain ⟨s₁, hv, heq⟩ := h.decide_vacates fold hreason hpark
  obtain ⟨htidy, hvacant⟩ := hv.tidy_vacant
  obtain ⟨p, hp⟩ := htidy.runNext hvacant fold
  rw [heq]
  exact ⟨p, hp.settled hvacant, hw.kept.trans ((hv.kept hreason).trans hp.kept)⟩

/-- What the retirement of `c` leaves: `c` is terminated, its termination raised once more, and
every other thread that is done is as it was. -/
structure Retired (s s' : Sched Tid) (c : Tid) : Prop where
  idleThread : s'.idleThread = s.idleThread
  basePriority : s'.basePriority = s.basePriority
  raised : s'.raised = c :: s.raised
  terminated : ∀ t, s'.state t = .terminated ↔ t = c ∨ s.state t = .terminated
  terminating : ∀ t, s'.disposition t = .terminating ↔ s.disposition t = .terminating

omit [Fintype Tid] in
theorem Departed.retired {s s' : Sched Tid} {c : Tid} (h : Departed s s' c .exited) :
    Retired s s' c := by
  refine ⟨h.idleThread, h.basePriority, h.raised, fun t => ?_, h.terminating⟩
  by_cases ht : t = c
  · simp [ht, h.own, leaves]
  · rcases h.state t ht with hs | ⟨hs, hne, -⟩
    · simp [hs, ht]
    · simp [hs, hne, ht]

omit [DecidableEq Tid] [Fintype Tid] in
theorem Retired.kept {s s' s'' : Sched Tid} {c : Tid} (h : Retired s s' c) (h' : Kept s' s'') :
    Retired s s'' c :=
  ⟨h'.1.trans h.1, h'.2.trans h.2, h'.3.trans h.3, fun t => (h'.4 t).trans (h.4 t),
    fun t => (h'.5 t).trans (h.5 t)⟩

/-- **The handler's road settles the core.**  It retires the thread exactly when it finds it running
and terminating. -/
theorem Consistent.rescheduleGuarded {s s' : Sched Tid} {c : Tid} (h : Consistent s c)
    (hidle : s.disposition c = .terminating → c ≠ s.idleThread) {fold : Tid → ℕ}
    {joiners : List Tid} (hs : s.rescheduleGuarded fold joiners c = some s') :
    ∃ p, Settled s' p ∧
      ((s.state c = .running ∧ s.disposition c = .terminating ∧ Retired s s' c) ∨
        (¬(s.state c = .running ∧ s.disposition c = .terminating) ∧ Kept s s')) := by
  obtain ⟨s₁, hv, rfl⟩ := h.rescheduleGuarded_vacates hidle hs
  obtain ⟨htidy, hvacant⟩ := hv.tidy_vacant
  obtain ⟨p, hp⟩ := htidy.runNext hvacant fold
  refine ⟨p, hp.settled hvacant, ?_⟩
  by_cases hd : s.disposition c = .terminating
  · rw [departureOf_eq_exited_iff.2 hd] at hv
    cases hv with
    | departs hrun hdep => exact Or.inl ⟨hrun, hd, hdep.retired.kept hp.kept⟩
    | nobody _ hvacant => exact Or.inr ⟨fun hand => hvacant c hand.1, hp.kept⟩
  · have hkept := hv.kept fun he => hd (departureOf_eq_exited_iff.1 he)
    exact Or.inr ⟨fun hand => hd hand.2, hkept.trans hp.kept⟩

/-! ### Start -/

omit [Fintype Tid] in
theorem tidy_initialise (idle : Tid) (basePriority : Tid → Level) :
    Tidy (initialise idle basePriority) := by
  have hstate : ∀ t, (initialise idle basePriority).state t = .ready ↔ t = idle := by
    intro t
    by_cases ht : t = idle <;> simp [initialise, ht]
  refine ⟨⟨fun _ => [], [], ⟨fun _ => Rep.nil _, Rep.nil _, by simp, ?_, by simp [initialise],
    by simp [initialise], by simp⟩, fun t => ?_⟩, Or.inl ((hstate _).2 rfl)⟩
  · intro p
    simp [initialise]
  · simp only [readySet, Set.mem_ofPred_eq, hstate, List.not_mem_nil, or_self, iff_false]
    exact fun h => h.2 h.1

/-- The threads registered before the start, and the scheduler they leave. -/
theorem registered (idle : Tid) (basePriority : Tid → Level) (threads : List Tid) :
    ∃ s, boot idle basePriority threads = s.start ∧ Tidy s ∧ Woken (initialise idle basePriority) s :=
  ⟨_, rfl, (tidy_initialise idle basePriority).foldl (fun _ t h => h.makeReady (fun _ => 0) t) threads⟩

omit [Fintype Tid] in
/-- `start` on a core on which nobody runs yet. -/
theorem Tidy.start {s : Sched Tid} (h : Tidy s) (hvacant : ∀ t, s.state t ≠ .running) :
    ∃ p, Picked s s.start p := by
  have hpop := h.filed.popBestThread
  unfold Sched.start
  cases heq : s.popBestThread with
  | mk picked s₁ =>
    rw [heq] at hpop
    obtain ⟨hsame, hpop⟩ := hpop
    cases picked with
    | some t => exact ⟨t, picked_setThreadRunning h hsame hpop.1.1 hpop.2⟩
    | none => exact ⟨_, picked_idleThread h hvacant hsame hpop⟩

omit [Fintype Tid] in
theorem woken_initialise_vacant {idle : Tid} {basePriority : Tid → Level} {s : Sched Tid}
    (hw : Woken (initialise idle basePriority) s) (t : Tid) : s.state t ≠ .running := by
  intro ht
  have := hw.running ht
  simp only [initialise, Function.update_apply] at this
  split at this <;> cases this

/-- **The core starts settled.** -/
theorem settled_boot (idle : Tid) (basePriority : Tid → Level) (threads : List Tid) :
    ∃ c, Settled (boot idle basePriority threads) c := by
  obtain ⟨s, heq, htidy, hw⟩ := registered idle basePriority threads
  obtain ⟨p, hp⟩ := htidy.start (woken_initialise_vacant hw)
  exact ⟨p, heq ▸ hp.settled (woken_initialise_vacant hw)⟩

/-- Nothing is terminating, terminated or raised at the start. -/
theorem kept_boot (idle : Tid) (basePriority : Tid → Level) (threads : List Tid) :
    Kept (initialise idle basePriority) (boot idle basePriority threads) := by
  obtain ⟨s, heq, htidy, hw⟩ := registered idle basePriority threads
  obtain ⟨p, hp⟩ := htidy.start (woken_initialise_vacant hw)
  exact heq ▸ hw.kept.trans hp.kept

/-- Nobody holds anything at the start. -/
theorem heldMask_boot (idle : Tid) (basePriority : Tid → Level) (threads : List Tid) (t : Tid) :
    (boot idle basePriority threads).heldMask t = 0 := by
  obtain ⟨s, heq, htidy, hw⟩ := registered idle basePriority threads
  obtain ⟨p, hp⟩ := htidy.start (woken_initialise_vacant hw)
  rw [heq, hp.heldMask, hw.heldMask]
  rfl

end Cyros.Kernel.Sched
