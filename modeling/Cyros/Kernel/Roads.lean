import Mathlib.Order.WellFounded
import Cyros.Kernel.Pick

/-!
# The roads agree

Three ways to serve the wakes of one interrupt: decide at each warranted wake and owe the switch to the
interrupt's return; ready all of them and decide once; ready all of them and let the pended
`reschedule` work it out.

The argument is over lists.  `full` is the ready matrix with the running thread put back at the front
of its level.  A wake appends one thread to it, and a decision takes its head: neither who runs nor
what is filed says more than `full` does (`OnTop.unique`).  A decision taken early files the pick that
never ran where the pick took it from, so it leaves `full` alone.

`roads_agree` is the result, over the steps of a core.
-/

namespace Cyros.Kernel

open Cyros.Lib Cyros.Lib.IntrusiveQueue

variable {Tid : Type}

namespace Sched

/-- The lists of the matrix determine its queues, its links and its bitmap. -/
theorem Filed.matrix_eq {s s' : Sched Tid} {levels : Level → List Tid} {hs : List Tid}
    (hf : Filed s levels hs) (hf' : Filed s' levels hs) (hbase : s'.basePriority = s.basePriority) :
    s'.matrix = s.matrix ∧ s'.next = s.next ∧ s'.bitmap = s.bitmap := by
  refine ⟨funext fun p => (hf.level p).queue_eq (hf'.level p), funext fun t => ?_, ?_⟩
  · by_cases ht : t ∈ levels (s.basePriority t)
    · exact (hf.level _).seg.next_eq (hf'.level _).seg t ht
    · rw [hf.sentinel t ht]
      exact hf'.sentinel t (by rwa [hbase])
  · apply BitVec.eq_of_getLsbD_eq
    intro i hi
    rw [Bool.eq_iff_iff]
    exact (hf'.bitmap ⟨i, hi⟩).trans (hf.bitmap ⟨i, hi⟩).symm

variable [DecidableEq Tid]

/-! ### Lists -/

/-- The matrix with `x` put back at the front of its level.  The idle thread is in no level. -/
def shelve (idle : Tid) (base : Tid → Level) (x : Tid) (levels : Level → List Tid) : Level → List Tid :=
  if x = idle then levels else Function.update levels (base x) (x :: levels (base x))

/-- The matrix with `t` at the back of its level. -/
def append (base : Tid → Level) (levels : Level → List Tid) (t : Tid) : Level → List Tid :=
  Function.update levels (base t) (levels (base t) ++ [t])

/-- A thread at the back and a thread at the front of a level do not meet. -/
theorem shelve_append (idle : Tid) (base : Tid → Level) (x t : Tid) (levels : Level → List Tid) :
    shelve idle base x (append base levels t) = append base (shelve idle base x levels) t := by
  unfold shelve append
  by_cases hx : x = idle
  · rw [if_pos hx, if_pos hx]
  · rw [if_neg hx, if_neg hx]
    funext q
    by_cases hq : base x = base t
    · rw [hq]
      by_cases hqt : q = base t
      · subst hqt
        simp
      · simp [Function.update_of_ne hqt]
    · by_cases hqt : q = base t
      · subst hqt
        simp [Function.update_of_ne (Ne.symm hq), Function.update_of_ne hq]
      · by_cases hqx : q = base x
        · subst hqx
          simp [Function.update_of_ne hq]
        · simp [Function.update_of_ne hqt, Function.update_of_ne hqx]

/-- What is filed after an admission of a thread that holds nothing. -/
theorem Filed.admitThread_back {s : Sched Tid} {levels : Level → List Tid} {hs : List Tid} {t : Tid}
    (hf : Filed s levels hs) (ht : t ∉ levels (s.basePriority t)) (hth : t ∉ hs)
    (hidle : t ≠ s.idleThread) (hheld : s.heldMask t = 0) :
    Filed (s.admitThread t false) (append s.basePriority levels t) hs := by
  have hf' : Filed (s.setState t .ready) levels hs :=
    ⟨hf.level, hf.holders, hf.base, hf.bitmap, hf.sentinel, hf.holderSentinel, hf.apart⟩
  have hfiled : s.admitThread t false = (s.setState t .ready).enqueueThread t := by
    simp [Sched.admitThread, setState, hidle, holdsNothing, hheld]
  rw [hfiled]
  exact hf'.enqueueThread ht hth

/-- What is filed after a preemption of a thread that holds nothing. -/
theorem Filed.admitThread_front {s : Sched Tid} {levels : Level → List Tid} {hs : List Tid} {x : Tid}
    (hf : Filed s levels hs) (hx : x ∉ levels (s.basePriority x)) (hxh : x ∉ hs)
    (hheld : s.heldMask x = 0) :
    Filed (s.admitThread x true) (shelve s.idleThread s.basePriority x levels) hs := by
  have hf' : Filed (s.setState x .ready) levels hs :=
    ⟨hf.level, hf.holders, hf.base, hf.bitmap, hf.sentinel, hf.holderSentinel, hf.apart⟩
  by_cases hidle : x = s.idleThread
  · rw [shelve, if_pos hidle, hidle, admitThread_idleThread]
    rwa [hidle] at hf'
  · have hfiled : s.admitThread x true = (s.setState x .ready).enqueueThreadFront x := by
      simp [Sched.admitThread, setState, hidle, holdsNothing, hheld]
    rw [shelve, if_neg hidle, hfiled]
    exact hf'.enqueueThreadFront hx hxh

variable [Fintype Tid]

/-- With no holder about, the head of the best level becomes the running thread. -/
theorem Filed.runNext_head {s : Sched Tid} {levels : Level → List Tid} (hf : Filed s levels [])
    (fold : Tid → ℕ) {b : Level} {t : Tid} {ts : List Tid} (hlevel : levels b = t :: ts)
    (hbest : ∀ q < b, levels q = []) :
    ∃ s', SameTcbs s s' ∧ Filed s' (Function.update levels b ts) [] ∧
      s.runNext fold = s'.setThreadRunning t := by
  obtain ⟨levels', hs', htakes, hfiled, hsame⟩ := hf.takes_pickNext fold (by simp)
  cases hpick : s.pickNext fold with
  | mk picked s' =>
      rw [hpick] at htakes hfiled hsame
      cases htakes with
      | nobody hempty => simp [hempty b] at hlevel
      | holder ys zs h hlist => simp at hlist
      | matrix p x xs hp hbelow =>
          have hpb : p = b := by
            rcases lt_trichotomy p b with hlt | heq | hgt
            · simp [hbest p hlt] at hp
            · exact heq
            · simp [hbelow b hgt] at hlevel
          subst hpb
          rw [hlevel, List.cons.injEq] at hp
          obtain ⟨rfl, rfl⟩ := hp
          refine ⟨s', hsame, hfiled, ?_⟩
          rw [Sched.runNext, hpick]

/-! ### The wakes of one interrupt -/

section Wakes

variable (s₀ : Sched Tid) (c : Tid) (levels₀ : Level → List Tid)

/-- The matrix with the running thread `c` back in it and `woken` behind, in the order of the wakes. -/
def full (woken : List Tid) : Level → List Tid :=
  woken.foldl (append s₀.basePriority) (shelve s₀.idleThread s₀.basePriority c levels₀)

/-- The threads' states with nobody running. -/
def allReady (woken : List Tid) (t : Tid) : ThreadState :=
  if t = c ∨ t ∈ woken then .ready else s₀.state t

/-- A thread an interrupt wakes here. -/
structure Wakeable (w : Tid) : Prop where
  blocked : s₀.state w = .blocked
  live : s₀.disposition w ≠ .terminating
  holdsNothing : s₀.heldMask w = 0

/-- Where the roads start: `c` runs, nobody holds anything, and nothing more urgent is ready. -/
structure Calm : Prop where
  settled : s₀.Settled c
  intake : s₀.intake = []
  holdsNothing : s₀.heldMask c = 0
  notTerminating : s₀.disposition c ≠ .terminating
  filed : Filed s₀ levels₀ []
  ready : ∀ t, t ∈ s₀.readySet ↔ t ∈ levels₀ (s₀.basePriority t)
  best : ∀ p < s₀.basePriority c, levels₀ p = []

/-- A state on the way: `x` runs, the others of `c` and `woken` are filed, and nothing else has
changed. -/
structure Along (woken : List Tid) (s : Sched Tid) (x : Tid) (levels : Level → List Tid) : Prop where
  idleThread : s.idleThread = s₀.idleThread
  basePriority : s.basePriority = s₀.basePriority
  heldMask : s.heldMask = s₀.heldMask
  intake : s.intake = []
  disposition : ∀ t, s.disposition t = s₀.disposition t ∨ s.disposition t = .none
  currentThread : s.currentThread = some x
  state : s.state = Function.update (allReady s₀ c woken) x .running
  filed : Filed s levels []
  shelved : shelve s₀.idleThread s₀.basePriority x levels = full s₀ c levels₀ woken
  /-- The running thread is not filed. -/
  out : x ∉ levels (s₀.basePriority x)
  own : x = c ∨ x ∈ woken
  wakeable : ∀ w ∈ woken, Wakeable s₀ w

/-- A state on the way whose running thread is the best there is. -/
structure OnTop (woken : List Tid) (s : Sched Tid) (x : Tid) (levels : Level → List Tid) : Prop
    extends Along s₀ c levels₀ woken s x levels where
  best : ∀ q < s₀.basePriority x, full s₀ c levels₀ woken q = []

end Wakes

variable {s₀ s : Sched Tid} {c x w : Tid} {levels₀ levels : Level → List Tid} {woken : List Tid}
  {fold : Tid → ℕ}

omit [Fintype Tid] in
theorem full_snoc : full s₀ c levels₀ (woken ++ [w]) =
    append s₀.basePriority (full s₀ c levels₀ woken) w := by
  rw [full, List.foldl_append]
  rfl

omit [Fintype Tid] in
theorem mem_full {t : Tid} {p : Level} (h : t ∈ full s₀ c levels₀ woken p) :
    t ∈ levels₀ p ∨ t = c ∨ t ∈ woken := by
  induction woken using List.reverseRecOn with
  | nil =>
      change t ∈ shelve s₀.idleThread s₀.basePriority c levels₀ p at h
      unfold shelve at h
      split at h
      · exact Or.inl h
      · rw [Function.update_apply] at h
        split at h
        · next hp =>
          rcases List.mem_cons.1 h with rfl | h
          · exact Or.inr (Or.inl rfl)
          · exact Or.inl (hp ▸ h)
        · exact Or.inl h
  | append_singleton woken w ih =>
      rw [full_snoc, append, Function.update_apply] at h
      split at h
      · next hp =>
        subst hp
        rcases List.mem_append.1 h with h | h
        · rcases ih h with h | h | h
          · exact Or.inl h
          · exact Or.inr (Or.inl h)
          · exact Or.inr (Or.inr (List.mem_append_left _ h))
        · exact Or.inr (Or.inr (List.mem_append_right _ h))
      · rcases ih h with h | h | h
        · exact Or.inl h
        · exact Or.inr (Or.inl h)
        · exact Or.inr (Or.inr (List.mem_append_left _ h))

omit [Fintype Tid] in
theorem mem_shelve {idle : Tid} {base : Tid → Level} {t : Tid} {p : Level} (h : t ∈ levels p) :
    t ∈ shelve idle base x levels p := by
  unfold shelve
  split
  · exact h
  · rw [Function.update_apply]
    split
    · next hp => exact List.mem_cons_of_mem _ (hp ▸ h)
    · exact h

namespace Wakeable

omit [DecidableEq Tid] [Fintype Tid] in
theorem ne_current (hw : Wakeable s₀ w) (h : Calm s₀ c levels₀) : w ≠ c := by
  rintro rfl
  have hstate := h.settled.running.symm.trans hw.blocked
  cases hstate

omit [DecidableEq Tid] [Fintype Tid] in
theorem ne_idleThread (hw : Wakeable s₀ w) (h : Calm s₀ c levels₀) : w ≠ s₀.idleThread := by
  intro hidle
  rcases h.settled.tidy.idle with hs | hs <;>
    · rw [← hidle, hw.blocked] at hs
      cases hs

omit [Fintype Tid] in
theorem notMem_full (hw : Wakeable s₀ w) (h : Calm s₀ c levels₀) (hfresh : w ∉ woken) :
    w ∉ full s₀ c levels₀ woken (s₀.basePriority w) := by
  intro hmem
  rcases mem_full hmem with hmem | hc | hmem
  · have hready := ((h.ready w).2 hmem).1
    rw [hw.blocked] at hready
    cases hready
  · exact hw.ne_current h hc
  · exact hfresh hmem

end Wakeable

/-! ### One wake -/

omit [Fintype Tid] in
/-- The roads start on the way, with nobody woken. -/
theorem Calm.onTop (h : Calm s₀ c levels₀) : OnTop s₀ c levels₀ [] s₀ c levels₀ := by
  have hnot : c ∉ levels₀ (s₀.basePriority c) := by
    intro hmem
    have hready := ((h.ready c).2 hmem).1
    rw [h.settled.running] at hready
    cases hready
  refine ⟨⟨rfl, rfl, rfl, h.intake, fun t => Or.inl rfl, h.settled.currentThread, ?_, h.filed, rfl,
    hnot, Or.inl rfl, by simp⟩, fun q hq => ?_⟩
  · funext t
    by_cases ht : t = c
    · rw [ht, Function.update_self, h.settled.running]
    · rw [Function.update_of_ne ht]
      simp [allReady, ht]
  · change shelve s₀.idleThread s₀.basePriority c levels₀ q = []
    unfold shelve
    split
    · exact h.best q hq
    · rw [Function.update_of_ne hq.ne]
      exact h.best q hq

omit [Fintype Tid] in
theorem Along.state_of_wakeable (h : Along s₀ c levels₀ woken s x levels) (hcalm : Calm s₀ c levels₀)
    (hw : Wakeable s₀ w) (hfresh : w ∉ woken) : w ≠ x ∧ s.state w = .blocked := by
  have hwc := hw.ne_current hcalm
  have hwx : w ≠ x := by
    rintro rfl
    rcases h.own with hc | hmem
    · exact hwc hc
    · exact hfresh hmem
  refine ⟨hwx, ?_⟩
  rw [h.state, Function.update_of_ne hwx]
  simp [allReady, hwc, hfresh, hw.blocked]

omit [Fintype Tid] in
theorem Along.holdsNothing (h : Along s₀ c levels₀ woken s x levels) (hcalm : Calm s₀ c levels₀) :
    s₀.heldMask x = 0 := by
  rcases h.own with rfl | hmem
  · exact hcalm.holdsNothing
  · exact (h.wakeable x hmem).holdsNothing

variable (fold) in
/-- A wake files the thread at the back of its level, and says whether it beats the running thread. -/
theorem Along.makeReady (h : Along s₀ c levels₀ woken s x levels) (hcalm : Calm s₀ c levels₀)
    (hw : Wakeable s₀ w) (hfresh : w ∉ woken) :
    Along s₀ c levels₀ (woken ++ [w]) ((s.setDisposition w .none).makeReady fold w).1 x
        (append s₀.basePriority levels w) ∧
      ((s.setDisposition w .none).makeReady fold w).2 =
        if s₀.basePriority w < s₀.basePriority x then .warranted else .unwarranted := by
  obtain ⟨hwx, hstate⟩ := h.state_of_wakeable hcalm hw hfresh
  have hidle : w ≠ s.idleThread := h.idleThread ▸ hw.ne_idleThread hcalm
  have hheld : s.heldMask w = 0 := by rw [h.heldMask, hw.holdsNothing]
  have hout : w ∉ levels (s₀.basePriority w) := fun hmem =>
    hw.notMem_full hcalm hfresh (h.shelved ▸ mem_shelve hmem)
  have hf : Filed (s.setDisposition w .none) levels [] :=
    ⟨h.filed.level, h.filed.holders, h.filed.base, h.filed.bitmap, h.filed.sentinel,
      h.filed.holderSentinel, h.filed.apart⟩
  have hnotEnq : (s.setDisposition w .none).isEnqueued w = false := by
    rw [← Bool.not_eq_true, hf.isEnqueued_iff]
    rw [← h.basePriority] at hout
    exact hout
  have hnotHolder : (s.setDisposition w .none).isListedHolder w = false := by
    rw [← Bool.not_eq_true, hf.isListedHolder_iff]
    exact List.not_mem_nil
  have hready : (s.setDisposition w .none).makeReady fold w =
      ((s.setDisposition w .none).admitThread w false,
        ((s.setDisposition w .none).admitThread w false).hintFor fold w) := by
    have hdone : ¬((s.setDisposition w .none).state w = .terminated ∨
        (s.setDisposition w .none).disposition w = .terminating) := by
      simp [setDisposition, hstate]
    rw [Sched.makeReady, if_neg hdone, hnotEnq, hnotHolder]
    rfl
  have hsame := sameTcbs_admitThread (s.setDisposition w .none) w false
  have hfiled := hf.admitThread_back (t := w) (by rw [← h.basePriority] at hout; exact hout)
    List.not_mem_nil hidle hheld
  rw [hready]
  have hbase : ((s.setDisposition w .none).admitThread w false).basePriority = s₀.basePriority :=
    hsame.basePriority.trans h.basePriority
  have hmask : ((s.setDisposition w .none).admitThread w false).heldMask = s₀.heldMask :=
    hsame.heldMask.trans h.heldMask
  refine ⟨⟨hsame.idleThread.trans h.idleThread, hbase, hmask, hsame.intake.trans h.intake, fun t => ?_,
    hsame.currentThread.trans h.currentThread, ?_, ?_, ?_, ?_, ?_, fun t ht => ?_⟩, ?_⟩
  · rw [hsame.disposition]
    by_cases ht : t = w
    · exact Or.inr (by rw [ht]; exact Function.update_self ..)
    · rcases h.disposition t with hd | hd
      · exact Or.inl ((Function.update_of_ne ht _ _).trans hd)
      · exact Or.inr ((Function.update_of_ne ht _ _).trans hd)
  · rw [hsame.state]
    funext t
    change Function.update s.state w .ready t = _
    rw [h.state]
    by_cases ht : t = w
    · subst ht
      rw [Function.update_self, Function.update_of_ne hwx]
      simp [allReady]
    · rw [Function.update_of_ne ht]
      by_cases htx : t = x
      · rw [htx, Function.update_self, Function.update_self]
      · rw [Function.update_of_ne htx, Function.update_of_ne htx]
        simp [allReady, ht]
  · rw [← h.basePriority]
    exact hfiled
  · rw [shelve_append, h.shelved, full_snoc]
  · unfold append
    rw [Function.update_apply]
    split
    · next hp =>
      rw [← hp, List.mem_append, List.mem_singleton, not_or]
      exact ⟨h.out, fun he => hwx he.symm⟩
    · exact h.out
  · rcases h.own with hc | hmem
    · exact Or.inl hc
    · exact Or.inr (List.mem_append_left _ hmem)
  · rcases List.mem_append.1 ht with ht | ht
    · exact h.wakeable t ht
    · rw [List.mem_singleton.1 ht]
      exact hw
  · have hx : s₀.heldMask x = 0 := h.holdsNothing hcalm
    have hcur : ((s.setDisposition w .none).admitThread w false).currentThread = some x :=
      hsame.currentThread.trans h.currentThread
    simp only [hintFor, currentThreadUrgency, hcur, urgency, hmask, hbase, hx, hw.holdsNothing, if_true,
      Fin.val_fin_lt]

/-! ### One decision -/

/-- **The decision takes the head of `full`.** -/
theorem Along.preempt (h : Along s₀ c levels₀ woken s x levels) (hcalm : Calm s₀ c levels₀)
    {b : Level} {t : Tid} {ts : List Tid} (hlevel : full s₀ c levels₀ woken b = t :: ts)
    (hbest : ∀ q < b, full s₀ c levels₀ woken q = []) (ht : t ∈ woken) :
    OnTop s₀ c levels₀ woken ((s.admitThread x true).runNext fold) t
      (Function.update (full s₀ c levels₀ woken) b ts) := by
  have hsame := sameTcbs_admitThread s x true
  have hbase : (s.admitThread x true).basePriority = s₀.basePriority :=
    hsame.basePriority.trans h.basePriority
  have hfiled : Filed (s.admitThread x true) (full s₀ c levels₀ woken) [] := by
    have hheld : s.heldMask x = 0 := by rw [h.heldMask, h.holdsNothing hcalm]
    have hf := h.filed.admitThread_front (x := x) (by rw [h.basePriority]; exact h.out)
      List.not_mem_nil hheld
    rwa [h.idleThread, h.basePriority, h.shelved] at hf
  obtain ⟨s', hsame', hfiled', hrun⟩ := hfiled.runNext_head fold hlevel hbest
  have hb : s₀.basePriority t = b := by
    rw [← hbase]
    exact hfiled.base b t (by simp [hlevel])
  have hnodup : t ∉ ts := by
    have hnd := (hfiled.level b).nodup
    rw [hlevel] at hnd
    exact (List.nodup_cons.1 hnd).1
  rw [hrun]
  refine ⟨⟨hsame'.idleThread.trans (hsame.idleThread.trans h.idleThread),
    hsame'.basePriority.trans hbase, hsame'.heldMask.trans (hsame.heldMask.trans h.heldMask),
    hsame'.intake.trans (hsame.intake.trans h.intake), fun y => ?_, rfl, ?_, ?_, ?_, ?_, Or.inr ht,
    h.wakeable⟩, by rwa [hb]⟩
  · have hd : (s'.setThreadRunning t).disposition y = s.disposition y := by
      change s'.disposition y = _
      rw [hsame'.disposition, hsame.disposition]
      rfl
    rw [hd]
    exact h.disposition y
  · -- the departing thread is one of those that are all ready
    change Function.update s'.state t .running = _
    rw [hsame'.state, hsame.state]
    change Function.update (Function.update s.state x .ready) t .running = _
    rw [h.state, Function.update_idem]
    congr 1
    rw [Function.update_eq_self_iff]
    simp [allReady, h.own]
  · exact ⟨hfiled'.level, hfiled'.holders, hfiled'.base, hfiled'.bitmap, hfiled'.sentinel,
      hfiled'.holderSentinel, hfiled'.apart⟩
  · rw [shelve, if_neg ((h.wakeable t ht).ne_idleThread hcalm), hb, Function.update_self, ← hlevel,
      Function.update_idem, Function.update_eq_self]
  · rwa [hb, Function.update_self]

theorem drainIntake_of_nil (hintake : s.intake = []) : s.drainIntake fold = s := by
  cases s
  subst hintake
  rfl

variable (fold) in
theorem Along.decide_preempted (h : Along s₀ c levels₀ woken s x levels) :
    s.decide fold .preempted = (s.admitThread x true).runNext fold := by
  have hrun : s.state x = .running := by rw [h.state, Function.update_self]
  simp only [Sched.decide, drainIntake_of_nil h.intake, h.currentThread, hrun, if_true, Sched.depart]

/-- With a more urgent thread ready, the handler finds the thread preempted. -/
theorem Along.rescheduleGuarded (h : Along s₀ c levels₀ woken s x levels) (hcalm : Calm s₀ c levels₀)
    (hlive : s₀.disposition x ≠ .terminating) {joiners : List Tid}
    (hmore : ∃ q < s₀.basePriority x, levels q ≠ []) :
    s.rescheduleGuarded fold joiners x = some ((s.admitThread x true).runNext fold) := by
  have hrun : s.state x = .running := by rw [h.state, Function.update_self]
  have hdisp : s.disposition x ≠ .terminating := by
    rcases h.disposition x with hd | hd <;> rw [hd]
    · exact hlive
    · decide
  have hpre : s.preempted x = true := by
    have hbits : s.hasMoreUrgentThan (s.basePriority x) = true := by
      rw [h.filed.hasMoreUrgentThan_iff, h.basePriority]
      exact hmore
    have hnone : s.holders.head.isNone = true :=
      Option.isNone_iff_eq_none.2 (h.filed.holders.head_eq_none_iff.2 rfl)
    have hheld : s.holdsNothing x = true := by
      rw [Sched.holdsNothing, h.heldMask, h.holdsNothing hcalm]
      rfl
    rw [Sched.preempted, hbits, hnone, hheld]
    rfl
  have hdep : s.departureOf x = .preempted := by
    rw [departureOf, if_neg hdisp, if_pos hpre]
  rw [Sched.rescheduleGuarded, if_pos hrun, hdep]
  rfl

/-! ### What `full` says -/

omit [Fintype Tid] in
/-- Once somebody woken beats `c`, the running thread on top is the head of `full`. -/
theorem OnTop.head (h : OnTop s₀ c levels₀ woken s x levels) (hcalm : Calm s₀ c levels₀)
    (hmore : ∃ q < s₀.basePriority c, full s₀ c levels₀ woken q ≠ []) :
    full s₀ c levels₀ woken (s₀.basePriority x) = x :: levels (s₀.basePriority x) ∧
      levels = Function.update (full s₀ c levels₀ woken) (s₀.basePriority x)
        (levels (s₀.basePriority x)) := by
  have hidle : x ≠ s₀.idleThread := by
    intro hidle
    rcases h.own with rfl | hmem
    · obtain ⟨q, hq, hne⟩ := hmore
      exact hne (h.best q hq)
    · exact (h.wakeable x hmem).ne_idleThread hcalm hidle
  have hshelved := h.shelved
  rw [shelve, if_neg hidle] at hshelved
  rw [← hshelved]
  exact ⟨Function.update_self .., by rw [Function.update_idem, Function.update_eq_self]⟩

omit [Fintype Tid] in
/-- **`full` determines who runs and what is filed.** -/
theorem OnTop.unique {s' : Sched Tid} {x' : Tid} {levels' : Level → List Tid}
    (h : OnTop s₀ c levels₀ woken s x levels) (h' : OnTop s₀ c levels₀ woken s' x' levels')
    (hcalm : Calm s₀ c levels₀) (hmore : ∃ q < s₀.basePriority c, full s₀ c levels₀ woken q ≠ []) :
    s'.currentThread = s.currentThread ∧ s'.state = s.state ∧ s'.matrix = s.matrix ∧
      s'.next = s.next ∧ s'.bitmap = s.bitmap := by
  obtain ⟨hhead, hlevels⟩ := h.head hcalm hmore
  obtain ⟨hhead', hlevels'⟩ := h'.head hcalm hmore
  have hbase : s₀.basePriority x' = s₀.basePriority x := by
    rcases lt_trichotomy (s₀.basePriority x') (s₀.basePriority x) with hlt | heq | hgt
    · rw [h.best _ hlt] at hhead'
      cases hhead'
    · exact heq
    · rw [h'.best _ hgt] at hhead
      cases hhead
  rw [hbase] at hhead' hlevels'
  obtain ⟨rfl, htail⟩ := List.cons.inj (hhead'.symm.trans hhead)
  obtain rfl : levels' = levels := by rw [hlevels', hlevels, htail]
  refine ⟨h'.currentThread.trans h.currentThread.symm, h'.state.trans h.state.symm, ?_⟩
  exact h.filed.matrix_eq h'.filed (h'.basePriority.trans h.basePriority.symm)

omit [DecidableEq Tid] [Fintype Tid] in
theorem append_ne_nil {base : Tid → Level} {t : Tid} {q : Level} (h : levels q ≠ []) :
    append base levels t q ≠ [] := by
  unfold append
  rw [Function.update_apply]
  split
  · simp
  · exact h

omit [Fintype Tid] in
/-- Whoever was woken is at its level of `full`. -/
theorem full_ne_nil (hw : w ∈ woken) : full s₀ c levels₀ woken (s₀.basePriority w) ≠ [] := by
  induction woken using List.reverseRecOn with
  | nil => simp at hw
  | append_singleton woken v ih =>
      rw [full_snoc]
      rcases List.mem_append.1 hw with hw | hw
      · exact append_ne_nil (ih hw)
      · rw [List.mem_singleton.1 hw, append, Function.update_self]
        simp

variable (fold) in
/-- **A decision after all wakes**: the best of `full` was woken, since `c` was the best before. -/
theorem Along.preempt_best (h : Along s₀ c levels₀ woken s c levels) (hcalm : Calm s₀ c levels₀)
    (hw : w ∈ woken) (hlt : s₀.basePriority w < s₀.basePriority c) :
    ∃ t levels', OnTop s₀ c levels₀ woken ((s.admitThread c true).runNext fold) t levels' := by
  have hwf : WellFounded ((· < ·) : Level → Level → Prop) := wellFounded_lt
  obtain ⟨b, hb, hmin⟩ := hwf.has_min {q | full s₀ c levels₀ woken q ≠ []} ⟨_, full_ne_nil hw⟩
  have hbest : ∀ q < b, full s₀ c levels₀ woken q = [] := fun q hq =>
    by_contra fun hne => hmin q hne hq
  have hbc : b < s₀.basePriority c :=
    lt_of_le_of_lt (le_of_not_gt fun hgt => hmin _ (full_ne_nil hw) hgt) hlt
  obtain ⟨t, ts, hlevel⟩ := List.exists_cons_of_ne_nil hb
  have hmem : t ∈ full s₀ c levels₀ woken b := by simp [hlevel]
  have ht : t ∈ woken := by
    rcases mem_full hmem with hmem₀ | rfl | hmem₀
    · simp [hcalm.best b hbc] at hmem₀
    · -- `c` is filed at its own level, which is not above itself
      have hfront := h.filed.admitThread_front (x := t) (by rw [h.basePriority]; exact h.out)
        List.not_mem_nil (by rw [h.heldMask, hcalm.holdsNothing])
      rw [h.idleThread, h.basePriority, h.shelved] at hfront
      have hbase := hfront.base b t hmem
      rw [(sameTcbs_admitThread s t true).basePriority] at hbase
      change s.basePriority t = b at hbase
      rw [h.basePriority] at hbase
      exact absurd hbase hbc.ne'
    · exact hmem₀
  exact ⟨t, _, h.preempt hcalm hlevel hbest ht⟩

end Sched

namespace Core

open Sched

variable [DecidableEq Tid] [Fintype Tid] {s₀ : Sched Tid} {c : Tid} {levels₀ : Level → List Tid}
  {fold : Tid → ℕ}

/-! ### The wakes as steps of a core -/

/-- The steps of one `global_ready_thread`. -/
def wakeActs (fold : Tid → ℕ) (policy : Policy) (road : Road) (w : Tid) : List (CoreAct Tid) :=
  [.wake w policy, .wakeClear, .wakeLook, .wakeReady fold road]

theorem run_wakeActs {k : Core Tid} {w : Tid} {policy : Policy} {road : Road} (hirqs : k.irqs = [.idle])
    (hblocked : k.sched.state w = .blocked) (hlive : k.sched.disposition w ≠ .terminating)
    (hopen : k.roadOpen road = true) :
    run next k (wakeActs fold policy road w) = some { k with
      sched := setThreadReady (k.sched.setDisposition w .none) fold w policy road } := by
  obtain ⟨sched, irqs, place, exiting, handler, posting⟩ := k
  simp only at hirqs hblocked hlive
  subst hirqs
  have hroad : ∀ w' sched', (Core.mk sched' [w'] place exiting handler posting).roadOpen road = true := by
    intro w' sched'
    cases road with
    | baseline => simp [roadOpen] at hopen
    | interrupt => simpa [roadOpen] using hopen
    | deferred => rfl
  simp [wakeActs, run, next, wakeStep, executing, moveTo, hblocked, hlive, setDisposition, hroad]

/-- An interrupt that wakes `ws` one after the other, with nothing in between. -/
def wakes (fold : Tid → ℕ) (policy : Policy) (road : Road) (ws : List Tid) : List (CoreAct Tid) :=
  ws.flatMap (wakeActs fold policy road)

/-- The wakes of an interrupt keep what each of them keeps. -/
theorem run_wakes (fold : Tid → ℕ) (policy : Policy) {road : Road}
    (J : List Tid → Sched Tid → Prop) (hcalm : Calm s₀ c levels₀)
    (halong : ∀ woken s, J woken s → ∃ x levels, Along s₀ c levels₀ woken s x levels)
    (hstep : ∀ woken s w, J woken s → Wakeable s₀ w → w ∉ woken →
      J (woken ++ [w]) (setThreadReady (s.setDisposition w .none) fold w policy road))
    {k : Core Tid} (woken : List Tid) {ws : List Tid} (hirqs : k.irqs = [.idle]) (hopen : k.roadOpen road = true)
    (hJ : J woken k.sched) (hws : ∀ w ∈ ws, Wakeable s₀ w) (hnodup : (woken ++ ws).Nodup) :
    ∃ s, run next k (wakes fold policy road ws) = some { k with sched := s } ∧ J (woken ++ ws) s := by
  induction ws generalizing k woken with
  | nil => exact ⟨k.sched, rfl, by simpa using hJ⟩
  | cons w ws ih =>
      obtain ⟨x, levels, h⟩ := halong _ _ hJ
      have hw := hws w List.mem_cons_self
      have hfresh : w ∉ woken := by
        intro hmem
        exact (List.nodup_append.1 hnodup).2.2 w hmem w List.mem_cons_self rfl
      have hstate := (h.state_of_wakeable hcalm hw hfresh).2
      have hlive : k.sched.disposition w ≠ .terminating := by
        rcases h.disposition w with hd | hd <;> rw [hd]
        · exact hw.live
        · decide
      obtain ⟨s, hrun, hJ'⟩ := ih (k := { k with
          sched := setThreadReady (k.sched.setDisposition w .none) fold w policy road }) (woken ++ [w])
        hirqs hopen (hstep _ _ w hJ hw hfresh) (fun v hv => hws v (List.mem_cons_of_mem w hv))
        (by simpa using hnodup)
      refine ⟨s, ?_, by simpa using hJ'⟩
      rw [wakes, List.flatMap_cons, run_append, run_wakeActs hirqs hstate hlive hopen]
      exact hrun

/-- A wake on the interrupt's road leaves the best thread running. -/
theorem OnTop.interruptWake {woken : List Tid} {s : Sched Tid} {x w : Tid} {levels : Level → List Tid}
    {policy : Policy} (h : OnTop s₀ c levels₀ woken s x levels) (hcalm : Calm s₀ c levels₀)
    (hw : Wakeable s₀ w) (hfresh : w ∉ woken) (hpolicy : policy ≠ .never) :
    ∃ x' levels', OnTop s₀ c levels₀ (woken ++ [w])
      (setThreadReady (s.setDisposition w .none) fold w policy .interrupt) x' levels' := by
  obtain ⟨halong, hhint⟩ := h.toAlong.makeReady fold hcalm hw hfresh
  have hset : setThreadReady (s.setDisposition w .none) fold w policy .interrupt =
      if s₀.basePriority w < s₀.basePriority x
      then (((s.setDisposition w .none).makeReady fold w).1).decide fold .preempted
      else ((s.setDisposition w .none).makeReady fold w).1 := by
    unfold setThreadReady
    dsimp only
    rw [hhint]
    by_cases hlt : s₀.basePriority w < s₀.basePriority x <;> simp [hlt, hpolicy]
  rw [hset]
  split
  · next hlt =>
    have hempty := h.best _ hlt
    have hlevel : full s₀ c levels₀ (woken ++ [w]) (s₀.basePriority w) = [w] := by
      rw [full_snoc, append, Function.update_self, hempty]
      rfl
    have hbest : ∀ q < s₀.basePriority w, full s₀ c levels₀ (woken ++ [w]) q = [] := by
      intro q hq
      rw [full_snoc, append, Function.update_of_ne hq.ne]
      exact h.best q (hq.trans hlt)
    rw [halong.decide_preempted fold]
    exact ⟨w, _, halong.preempt hcalm hlevel hbest (by simp)⟩
  · next hge =>
    refine ⟨x, _, halong, fun q hq => ?_⟩
    have hne : q ≠ s₀.basePriority w := fun he => hge (he ▸ hq)
    rw [full_snoc, append, Function.update_of_ne hne]
    exact h.best q hq

/-- A deferred wake leaves the running thread as it is. -/
theorem Along.deferredWake {woken : List Tid} {s : Sched Tid} {w : Tid} {policy : Policy}
    (h : ∃ levels, Along s₀ c levels₀ woken s c levels) (hcalm : Calm s₀ c levels₀)
    (hw : Wakeable s₀ w) (hfresh : w ∉ woken) :
    ∃ levels, Along s₀ c levels₀ (woken ++ [w])
      (setThreadReady (s.setDisposition w .none) fold w policy .deferred) c levels := by
  obtain ⟨levels, h⟩ := h
  have hset : setThreadReady (s.setDisposition w .none) fold w policy .deferred =
      ((s.setDisposition w .none).makeReady fold w).1 := by
    unfold setThreadReady
    dsimp only
    rw [if_neg fun hand => hand.2.2 rfl]
  rw [hset]
  exact ⟨_, (h.makeReady fold hcalm hw hfresh).1⟩

/-- The handler's steps on a core with nothing on the intake. -/
theorem run_handler {k : Core Tid} {s : Sched Tid} {joiners : List Tid} (hirqs : k.irqs = [])
    (hhandler : k.handler = .idle) (hintake : k.sched.intake = [])
    (hcur : k.sched.currentThread = some c)
    (hguard : k.sched.rescheduleGuarded fold joiners c = some s) :
    run next k [.handlerEnter, .handlerTake, .handlerPrev, .handlerGuard fold joiners,
      .handlerSwitch] = some { k with sched := s } := by
  obtain ⟨sched, irqs, place, exiting, handler, posting⟩ := k
  simp only at hirqs hhandler hintake hcur hguard
  subst hirqs hhandler
  cases sched
  simp only at hintake hcur
  subst hintake hcur
  simp only [run, next, handlerStep, if_true, Option.bind_some, List.reverse_nil, hguard,
    Option.map_some]

/-! ### The three roads -/

/-- The core on which the interrupt is taken. -/
structure Quiet (k : Core Tid) (c : Tid) : Prop where
  settled : k.sched.Settled c
  irqs : k.irqs = []
  handler : k.handler = .idle
  intake : k.sched.intake = []
  /-- No running or ready thread holds a mutex. -/
  holdsNothing : ∀ t, k.sched.state t = .running ∨ k.sched.state t = .ready → k.sched.heldMask t = 0
  /-- On the holder list are holders, as on every core that runs (`listed_hold`). -/
  listed : ∀ t, k.sched.isListedHolder t = true → k.sched.heldMask t ≠ 0
  notTerminating : k.sched.disposition c ≠ .terminating
  best : ∀ t, k.sched.state t = .ready → t ≠ k.sched.idleThread →
    k.sched.basePriority c ≤ k.sched.basePriority t

omit [Fintype Tid] in
theorem Quiet.calm {k : Core Tid} (hk : Quiet k c) : ∃ levels₀, Calm k.sched c levels₀ := by
  obtain ⟨levels, hs, hf, hR⟩ := hk.settled.tidy.filed
  have hnil : hs = [] := by
    apply List.eq_nil_iff_forall_not_mem.2
    intro t ht
    exact hk.listed t ((hf.isListedHolder_iff t).2 ht)
      (hk.holdsNothing t (Or.inr ((hR t).2 (Or.inr ht)).1))
  subst hnil
  have hready : ∀ t, t ∈ k.sched.readySet ↔ t ∈ levels (k.sched.basePriority t) := by
    intro t
    rw [hR]
    simp
  refine ⟨levels, hk.settled, hk.intake, hk.holdsNothing c (Or.inl hk.settled.running),
    hk.notTerminating, hf, hready, fun p hp => ?_⟩
  apply List.eq_nil_iff_forall_not_mem.2
  intro t ht
  have hbase := hf.base p t ht
  subst hbase
  obtain ⟨hstate, hidle⟩ := (hready t).2 ht
  exact absurd hp (not_lt_of_ge (hk.best t hstate hidle))

/-- The same running thread and the same ready matrix: the ends and links of every level, hence its
order, and the bitmap. -/
structure Agree (s s' : Sched Tid) : Prop where
  currentThread : s'.currentThread = s.currentThread
  state : s'.state = s.state
  matrix : s'.matrix = s.matrix
  links : s'.next = s.next
  bitmap : s'.bitmap = s.bitmap

/-- **The roads agree.**  An interrupt that wakes `ws`, one of them more urgent than the running thread:
deciding at each warranted wake leaves the core as readying all of them and deciding once does, and as
readying all of them and letting the pended `reschedule` run does. -/
theorem roads_agree (k : Core Tid) (c : Tid) (ws : List Tid) (fold : Tid → ℕ) (joiners : List Tid)
    (policy policy' : Policy) (hk : Quiet k c) (hnodup : ws.Nodup)
    (hws : ∀ w ∈ ws, Wakeable k.sched w)
    (hmore : ∃ w ∈ ws, k.sched.basePriority w < k.sched.basePriority c) (hpolicy : policy ≠ .never) :
    ∃ k₁ k₂ k₃,
      run next k (.irqEnter :: wakes fold policy .interrupt ws ++ [.irqReturn]) = some k₁ ∧
      run next k (.irqEnter :: wakes fold policy' .deferred ws) = some k₂ ∧
      run next k (.irqEnter :: wakes fold policy' .deferred ws ++ [.irqReturn, .handlerEnter,
        .handlerTake, .handlerPrev, .handlerGuard fold joiners, .handlerSwitch]) = some k₃ ∧
      Agree (k₂.sched.decide fold .preempted) k₁.sched ∧
      Agree (k₂.sched.decide fold .preempted) k₃.sched := by
  obtain ⟨levels₀, hcalm⟩ := hk.calm
  obtain ⟨w, hw, hlt⟩ := hmore
  have hlevel : full k.sched c levels₀ ws (k.sched.basePriority w) ≠ [] := full_ne_nil hw
  have henter : next k .irqEnter = some { k with irqs := [.idle] } := by
    rw [next, hk.irqs]
  have hreturn : ∀ s, run next { k with irqs := [.idle], sched := s } [.irqReturn] =
      some { k with sched := s } := by
    intro s
    rw [← hk.irqs]
    rfl
  -- decided at each wake
  obtain ⟨s₁, hrun₁, x₁, levels₁, hs₁⟩ := run_wakes fold policy
    (fun woken s => ∃ x levels, OnTop k.sched c levels₀ woken s x levels) hcalm
    (fun _ _ h => h.imp fun x => Exists.imp fun levels => OnTop.toAlong)
    (fun _ _ _ h hw hfresh => by
      obtain ⟨x, levels, h⟩ := h
      exact OnTop.interruptWake h hcalm hw hfresh hpolicy)
    (k := { k with irqs := [.idle] }) [] rfl (by simp [roadOpen, hk.handler]) ⟨c, levels₀, hcalm.onTop⟩ hws hnodup
  -- all readied first
  obtain ⟨s₂, hrun₂, levels₂, hs₂⟩ := run_wakes fold policy'
    (fun woken s => ∃ levels, Along k.sched c levels₀ woken s c levels) hcalm
    (fun _ _ h => ⟨c, h⟩)
    (fun _ _ _ h hw hfresh => Along.deferredWake h hcalm hw hfresh)
    (k := { k with irqs := [.idle] }) [] rfl rfl ⟨levels₀, hcalm.onTop.toAlong⟩ hws hnodup
  rw [List.nil_append] at hs₁ hs₂
  obtain ⟨x₃, levels₃, hs₃⟩ := hs₂.preempt_best fold hcalm hw hlt
  have hguard : s₂.rescheduleGuarded fold joiners c = some ((s₂.admitThread c true).runNext fold) := by
    apply hs₂.rescheduleGuarded hcalm hk.notTerminating
    refine ⟨_, hlt, fun hnil => hlevel ?_⟩
    rw [← hs₂.shelved, shelve]
    split
    · exact hnil
    · rw [Function.update_of_ne hlt.ne, hnil]
  have hdecide := hs₂.decide_preempted fold
  obtain ⟨hcur, hstate, hmatrix, hnext, hbitmap⟩ := hs₃.unique hs₁ hcalm ⟨_, hlt, hlevel⟩
  refine ⟨{ k with sched := s₁ }, { k with irqs := [.idle], sched := s₂ },
    { k with sched := (s₂.admitThread c true).runNext fold }, ?_, ?_, ?_, ?_, ?_⟩
  · rw [List.cons_append, run_cons, henter, Option.bind_some, run_append, hrun₁]
    exact hreturn s₁
  · rw [run_cons, henter]
    exact hrun₂
  · rw [List.cons_append, run_cons, henter, Option.bind_some, run_append, hrun₂]
    have hhandler := run_handler (k := { k with sched := s₂ }) hk.irqs hk.handler hs₂.intake
      hs₂.currentThread hguard
    have happ : (CoreAct.irqReturn :: [.handlerEnter, .handlerTake, .handlerPrev,
        .handlerGuard fold joiners, .handlerSwitch]) = [CoreAct.irqReturn] ++ [.handlerEnter,
        .handlerTake, .handlerPrev, .handlerGuard fold joiners, .handlerSwitch] := rfl
    rw [Option.bind_some, happ, run_append, hreturn s₂]
    exact hhandler
  · rw [hdecide]
    exact ⟨hcur, hstate, hmatrix, hnext, hbitmap⟩
  · rw [hdecide]
    exact ⟨rfl, rfl, rfl, rfl, rfl⟩

/-- The idle thread and three threads, the last the most urgent. -/
def threeThreads : Fin 4 → Level := fun t => if t = 0 then 31 else if t = 1 then 5 else if t = 2 then 4 else 3

/-- Threads 3 and 2 park, and thread 1 runs. -/
def twoPark : List (CoreAct (Fin 4)) :=
  [.prepare, .commitToBlock fun _ => 0, .prepare, .commitToBlock fun _ => 0]

theorem quiet_twoPark : ∃ k, run next (boot 0 threeThreads [1, 2, 3]) twoPark = some k ∧ Quiet k 1 ∧
    (∀ w ∈ [2, 3], Wakeable k.sched w) ∧ k.sched.basePriority = threeThreads := by
  have hok : Meets next ReadiesNoRunning (boot 0 threeThreads [1, 2, 3]) twoPark :=
    ⟨trivial, trivial, trivial, trivial, trivial⟩
  refine ⟨_, rfl, ?_, ?_, rfl⟩
  · have hi := run_invariant_of_meets (I := Inv True) (fun _ _ _ hi hok h => hi.next (fun _ => hok) h)
      (inv_boot 0 threeThreads [1, 2, 3]) hok rfl
    obtain ⟨c, hc⟩ := hi.settled rfl
    obtain rfl : 1 = c := Option.some.inj hc.currentThread
    refine ⟨hc, rfl, rfl, rfl, fun t _ => rfl, fun t ht => ?_, ?_, fun t ht hidle => ?_⟩
    · revert ht
      fin_cases t <;> exact fun h => by cases h
    · intro h
      cases h
    · revert ht hidle
      fin_cases t
      · exact fun _ h => absurd rfl h
      all_goals exact fun h => by cases h
  · intro w hw
    revert hw
    fin_cases w <;> intro hw
    · simp at hw
    · simp at hw
    all_goals exact ⟨rfl, nofun, rfl⟩

/-- Thread 2 is woken first, then the more urgent thread 3. -/
theorem roads_agree_twoWoken : ∃ k, run next (boot 0 threeThreads [1, 2, 3]) twoPark = some k ∧
    ∃ k₁ k₂ k₃,
      run next k (.irqEnter :: wakes (fun _ => 0) .automatic .interrupt [2, 3] ++ [.irqReturn]) = some k₁ ∧
      run next k (.irqEnter :: wakes (fun _ => 0) .never .deferred [2, 3]) = some k₂ ∧
      run next k (.irqEnter :: wakes (fun _ => 0) .never .deferred [2, 3] ++ [.irqReturn,
        .handlerEnter, .handlerTake, .handlerPrev, .handlerGuard (fun _ => 0) [], .handlerSwitch]) =
          some k₃ ∧
      Agree (k₂.sched.decide (fun _ => 0) .preempted) k₁.sched ∧
      Agree (k₂.sched.decide (fun _ => 0) .preempted) k₃.sched := by
  obtain ⟨k, hrun, hquiet, hws, hbase⟩ := quiet_twoPark
  refine ⟨k, hrun, roads_agree k 1 [2, 3] (fun _ => 0) [] .automatic .never hquiet (by simp) hws
    ⟨2, by simp, ?_⟩ (by simp)⟩
  rw [hbase]
  exact (by simp [threeThreads] : threeThreads 2 < threeThreads 1)

end Core

end Cyros.Kernel
