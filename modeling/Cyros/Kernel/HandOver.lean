import Cyros.Kernel.Pick
import Cyros.Kernel.HolderList
import Cyros.Kernel.WaitSteps

/-!
# Hand-overs and the pick

A mutex that is handed over is filed in the new owner's slots by the releasing core, before the new owner
is woken.  The new owner may be sitting in the ready matrix of its core at that moment, where the pick
would compare it at its base priority; the wake that follows the hand-over moves it to the holder list.

`pick_right_and_holders_listed` says so for every run in which no wake readies a running thread, and
`holder_left_in_matrix` is a run in which one does: the thread is filed while it runs, and the mutex it
takes next makes it a holder in the matrix, with no wake to come.
-/

namespace Cyros.Kernel.Waits

open Cyros.Lib Cyros.Lib.IntrusiveQueue Sched

variable {n : ℕ} {T : Fin n → Type} {Q : Type} [∀ c, DecidableEq (T c)] [∀ c, Fintype (T c)]

/-- A wake of the thread is under way. -/
def Coming (S : Waits T Q) (t : Σ c, T c) : Prop :=
  t ∈ S.called ∨ (S.cores t.1).Clearing t.2 ∨ (S.cores t.1).sched.pending t.2 = true ∨
    (S.cores t.1).Late t.2

/-- The condition on a step: it readies no running thread. -/
def ReadiesNone (S : Waits T Q) : WaitAct T Q → Prop
  | .core c act => Core.ReadiesNoRunning (S.cores c) act
  | _ => True

/-- **What holds between steps**: a holder in the matrix is alive, and a wake of it is under way. -/
structure HandInv (S : Waits T Q) : Prop where
  waits : Inv S
  nodes : Nodes S
  strong : ∀ c, Core.Inv True (S.cores c)
  hidden : ∀ t : Σ c, T c, (S.cores t.1).sched.Hidden t.2 →
    (S.cores t.1).sched.Live t.2 ∧ S.Coming t

variable {S S' : Waits T Q}

/-- The step hands a mutex to `t`. -/
def HandsTo (S : Waits T Q) (t : Σ c, T c) : WaitAct T Q → Prop
  | .wake q (.commit _) => (S.queue q).head?.map Prod.fst = some t
  | _ => False

variable [DecidableEq Q]

omit [∀ c, Fintype (T c)] in
/-- A step of a wait or a wake, as a core's step, readies nobody by itself. -/
theorem CoreActOf.readiesNoRunning {act : WaitAct T Q} {c : Fin n} {a : CoreAct (T c)}
    (h : CoreActOf S act c a) (hok : ReadiesNone S act) : Core.ReadiesNoRunning (S.cores c) a := by
  cases h with
  | core => exact hok
  | _ => trivial

omit [∀ c, Fintype (T c)] in
/-- A mutex is filed for another thread by a hand-over to it. -/
theorem CoreActOf.handsTo {act : WaitAct T Q} {c : Fin n} {a : CoreAct (T c)} (h : CoreActOf S act c a)
    {x : T c} {mask : BitVec 8} (ha : a = .remoteFile x mask) : HandsTo S ⟨c, x⟩ act := by
  cases h with
  | core c a hown =>
      subst ha
      simp [ownsAct] at hown
  | file q slot first rest hq =>
      cases ha
      simp [HandsTo, hq]
  | _ => cases ha

/-- **A step that hands nothing to `t`**: if `t` is hidden afterwards it was before, and if it was alive
then it still is, with the wakes of it that were under way. -/
theorem hidden_next (hstrong : ∀ c, Core.Inv True (S.cores c)) {act : WaitAct T Q}
    (h : S.next act = some S') {t : Σ c, T c} (hhand : ¬ HandsTo S t act)
    (hh : (S'.cores t.1).sched.Hidden t.2) :
    (S.cores t.1).sched.Hidden t.2 ∧ ((S.cores t.1).sched.Live t.2 →
      (S'.cores t.1).sched.Live t.2 ∧ (S.Coming t → S'.Coming t)) := by
  obtain ⟨d, x⟩ := t
  obtain ⟨hcores, hdone⟩ | ⟨c, a, k, hact, hk, hcores⟩ := next_cores h
  · rw [hcores] at hh ⊢
    refine ⟨hh, fun hl => ⟨hl, fun hcome => ?_⟩⟩
    unfold Coming at hcome ⊢
    rw [hcores]
    rcases hcome with hcall | hrest
    · rcases mem_called_next h hcall with hcall | ⟨c, policy, rfl⟩
      · exact Or.inl hcall
      · exact absurd hl (hdone c _ policy rfl)
    · exact Or.inr hrest
  · by_cases hd : d = c
    · subst hd
      rw [hcores, Function.update_self] at hh ⊢
      have hkeeps := Core.keeps_next (hstrong d) (fun mask he => hhand (hact.handsTo he)) hk hh
      refine ⟨hkeeps.hidden, fun hl => ⟨hkeeps.live hl, fun hcome => ?_⟩⟩
      unfold Coming at hcome ⊢
      rw [hcores, Function.update_self]
      rcases hcome with hcall | hclear | hpend | hlate
      · rcases mem_called_next h hcall with hcall | ⟨c, policy, rfl⟩
        · exact Or.inl hcall
        · -- the call is made here: it stands on the thread's core, as a step or as a request
          cases hact with
          | call =>
              have hstands := Core.clearing_wake hl hk
              exact Or.inr (Or.inl hstands)
          | post _ _ _ hne =>
              have hpend := Core.pending_remoteClaim hk
              exact Or.inr (Or.inr (Or.inl hpend))
      · rcases hkeeps.clearing hclear with hc | hl'
        · exact Or.inr (Or.inl hc)
        · exact Or.inr (Or.inr (Or.inr hl'))
      · rcases hkeeps.pending hl hpend with hp | hs
        · exact Or.inr (Or.inr (Or.inl hp))
        · exact Or.inr (Or.inr (Or.inr (Or.inr hs)))
      · exact Or.inr (Or.inr (Or.inr (hkeeps.late hl hlate)))
    · rw [hcores, Function.update_of_ne hd] at hh ⊢
      refine ⟨hh, fun hl => ⟨hl, fun hcome => ?_⟩⟩
      unfold Coming at hcome ⊢
      rw [hcores, Function.update_of_ne hd]
      rcases hcome with hcall | hrest
      · rcases mem_called_next h hcall with hcall | ⟨e, policy, rfl⟩
        · exact Or.inl hcall
        · cases hact <;> exact absurd rfl hd
      · exact Or.inr hrest

theorem strong_next (hstrong : ∀ c, Core.Inv True (S.cores c)) {act : WaitAct T Q}
    (hok : ReadiesNone S act) (h : S.next act = some S') (d : Fin n) : Core.Inv True (S'.cores d) := by
  obtain ⟨hcores, -⟩ | ⟨c, a, k, hact, hk, hcores⟩ := next_cores h
  · rw [hcores]
    exact hstrong d
  · rw [hcores]
    by_cases hd : d = c
    · subst hd
      rw [Function.update_self]
      exact (hstrong d).next (fun _ => hact.readiesNoRunning hok) hk
    · rw [Function.update_of_ne hd]
      exact hstrong d

/-- The thread that a mutex is handed to is inside its wait, and is to be called. -/
theorem handsTo_called (hi : Inv S) (hnodes : Nodes S) {act : WaitAct T Q} (h : S.next act = some S')
    {t : Σ c, T c} (hhand : HandsTo S t act) : (S'.cores t.1).sched.Live t.2 ∧ t ∈ S'.called := by
  have hi' := hi.next h
  cases effect_of_next h with
  | @take q kind hkind =>
      cases kind with
      | commit slot => exact absurd rfl (hkind slot)
      | one | filtered | raise => exact hhand.elim
  | nobody hq => simp [HandsTo, hq] at hhand
  | @commit q slot first rest k hq =>
      obtain rfl : first.1 = t := by simpa [HandsTo, hq] using hhand
      have hplace := hnodes.place_ne_outside (x := first) (q := q) (by simp [hq])
      exact ⟨hi'.live first.1 hplace, by simp [Waits.take]⟩
  | core | quiet | own | call | done | post => exact hhand.elim

/-- **One step keeps the invariant.** -/
theorem HandInv.next (hi : HandInv S) {act : WaitAct T Q} (hok : ReadiesNone S act)
    (h : S.next act = some S') : HandInv S' := by
  refine ⟨hi.waits.next h, hi.nodes.next h, strong_next hi.strong hok h, fun t hh => ?_⟩
  by_cases hhand : HandsTo S t act
  · obtain ⟨hlive, hcalled⟩ := handsTo_called hi.waits hi.nodes h hhand
    exact ⟨hlive, Or.inl hcalled⟩
  · obtain ⟨hhidden, hrest⟩ := hidden_next hi.strong h hhand hh
    obtain ⟨hlive, hcome⟩ := hi.hidden t hhidden
    exact ⟨(hrest hlive).1, (hrest hlive).2 hcome⟩

omit [DecidableEq Q] in
theorem handInv_boot (idle : ∀ c, T c) (basePriority : ∀ c, T c → Level) (threads : ∀ c, List (T c)) :
    HandInv (boot idle basePriority threads : Waits T Q) := by
  refine ⟨inv_boot idle basePriority threads, nodes_boot idle basePriority threads,
    fun c => Core.inv_boot _ _ _, fun t hh => absurd (Sched.heldMask_boot _ _ _ _) hh.2⟩

/-! ### The pick and the holder list -/

/-- If the thread is ready and holds a mutex, it is on the holder list. -/
def Listed (S : Waits T Q) (t : Σ c, T c) : Prop :=
  (S.cores t.1).sched.state t.2 = .ready → t.2 ≠ (S.cores t.1).sched.idleThread →
    (S.cores t.1).sched.heldMask t.2 ≠ 0 → (S.cores t.1).sched.isListedHolder t.2 = true

omit [DecidableEq Q] [∀ c, Fintype (T c)] in
theorem listed_iff {t : Σ c, T c} (htidy : (S.cores t.1).sched.Tidy) :
    S.Listed t ↔ ¬ (S.cores t.1).sched.Hidden t.2 := by
  obtain ⟨levels, hs, hf, hR⟩ := htidy.filed
  constructor
  · rintro hlisted ⟨henq, hheld⟩
    obtain ⟨hready, hidle⟩ := htidy.ready_of_enqueued henq
    have hmem := (hf.isListedHolder_iff _).1 (hlisted hready hidle hheld)
    exact hf.apart _ _ ((hf.isEnqueued_iff _).1 henq) hmem
  · intro hnot hready hidle hheld
    rcases (hR _).1 ⟨hready, hidle⟩ with hmem | hmem
    · exact absurd ⟨(hf.isEnqueued_iff _).2 hmem, hheld⟩ hnot
    · exact (hf.isListedHolder_iff _).2 hmem

/-- **The pick is right, and no holder is left where it does not look.**  On every core in order, with no
holder in the matrix, the pick is right.  And in every state of every run in which no wake readies a
running thread: a ready thread that holds a mutex is on the holder list, or its wake is still owed; no step
but a hand-over to it takes it off where it belongs; and the wake, once delivered, has put it there. -/
theorem pick_right_and_holders_listed (idle : ∀ c, T c) (basePriority : ∀ c, T c → Level)
    (threads : ∀ c, List (T c)) (acts : List (WaitAct T Q))
    (hok : Meets next ReadiesNone (boot idle basePriority threads) acts)
    (hrun : run next (boot idle basePriority threads) acts = some S) :
    (∀ (c : Fin n) (s : Sched (T c)) (levels : Level → List (T c)) (hs : List (T c)) (fold : T c → ℕ),
      Core.ReadyStructure s levels hs → (∀ p, ∀ t ∈ levels p, s.heldMask t = 0) →
      (∀ t, fold t ≤ s.basePriority t) → s.PickRight fold levels hs) ∧
    (∀ t, S.Listed t ∨ S.MakeReadyOwed t) ∧
    (∀ act S' t, S.next act = some S' → S.Listed t → ¬ HandsTo S t act → S'.Listed t) ∧
    ∀ act S' c a t, S.next act = some S' → CoreActOf S act c a →
      (S.cores c).next a = some (S'.cores c) → Core.Delivers (S.cores c) (S'.cores c) t a →
      S'.Listed ⟨c, t⟩ := by
  have hi : HandInv S := run_invariant_of_meets (I := HandInv) (fun _ _ _ hi hok h => hi.next hok h)
    (handInv_boot idle basePriority threads) hok hrun
  refine ⟨fun c s levels hs fold hready hmatrix hfold =>
    pickRight_of_readyStructure hready hmatrix fold hfold, fun t => ?_, ?_, ?_⟩
  · by_cases hh : (S.cores t.1).sched.Hidden t.2
    · right
      obtain ⟨-, hcall | hclear | hpend | hlate⟩ := hi.hidden t hh
      · exact Or.inl (Or.inl hcall)
      · exact Or.inl (Or.inr (Or.inl hclear))
      · exact Or.inr ⟨hpend, hi.waits.posted t.1 t.2 hpend⟩
      · exact Or.inl (Or.inr (Or.inr hlate))
    · exact Or.inl ((listed_iff (hi.strong t.1).tidy).2 hh)
  · intro act S' t h hlisted hhand
    rw [listed_iff ((hi.waits.next h).core t.1).tidy]
    rw [listed_iff (hi.strong t.1).tidy] at hlisted
    exact fun hh => hlisted (hidden_next hi.strong h hhand hh).1
  · intro act S' c a t h hact hk hdelivers
    rw [listed_iff ((hi.waits.next h).core c).tidy]
    intro hh
    have hhand : ¬ HandsTo S ⟨c, t⟩ act := by
      intro hhand
      cases hact with
      | file => exact hdelivers
      | _ => exact hhand
    have hhidden := (hidden_next hi.strong h hhand hh).1
    exact Core.not_hidden_of_delivers (hi.strong c) (hi.hidden ⟨c, t⟩ hhidden).1 hk hdelivers hh

/-! ### A running thread that is filed -/

/-- `Core.nestedWake`, which files thread 2 while it runs; then thread 2 takes a mutex. -/
def nestedWakeHeld : List (WaitAct (fun _ : Fin 1 => Fin 3) Unit) :=
  Core.nestedWake.map (fun act => .core 0 act) ++ [.core 0 (.hold 1)]

/-- **A holder stays in the matrix.**  Thread 2 was filed while it ran, and the mutex it takes then does
not move it: it is ready, holds the mutex, is not on the holder list, and no wake is owed to it. -/
theorem holder_left_in_matrix :
    ∃ S : Waits (fun _ : Fin 1 => Fin 3) Unit,
      run next (boot (fun _ => 0) (fun _ => Core.twoThreads) fun _ => [1, 2]) nestedWakeHeld = some S ∧
      (S.cores 0).sched.isEnqueued 2 = true ∧ ¬ S.Listed ⟨0, 2⟩ ∧ ¬ S.MakeReadyOwed ⟨0, 2⟩ := by
  have heval : (run next (boot (fun _ => 0) (fun _ => Core.twoThreads) fun _ => [1, 2] :
      Waits (fun _ : Fin 1 => Fin 3) Unit) nestedWakeHeld).map (fun S =>
        (((S.cores 0).sched.state 2, (S.cores 0).sched.idleThread, (S.cores 0).sched.heldMask 2,
          (S.cores 0).sched.isListedHolder 2, (S.cores 0).sched.isEnqueued 2,
          (S.cores 0).sched.pending 2), (S.called, (S.cores 0).irqs, (S.cores 0).handler),
          ((S.cores 0).place 0, (S.cores 0).place 1, (S.cores 0).place 2))) =
      some ((.ready, 0, 1, false, true, false), ([], [], .idle), (.idle, .idle, .idle)) := rfl
  obtain ⟨S, hS, hv⟩ := Option.map_eq_some_iff.mp heval
  simp only [Prod.mk.injEq] at hv
  obtain ⟨⟨hstate, hidle, hheld, hlisted, henq, hpend⟩, ⟨hcalled, hirqs, hhandler⟩, hp0, hp1, hp2⟩ := hv
  have hplace : ∀ c, (S.cores 0).place c = .idle := by
    intro c
    fin_cases c
    exacts [hp0, hp1, hp2]
  have hat : ∀ w : WakePlace (Fin 3), (S.cores 0).WakeAt w → w = .idle := by
    rintro w (hmem | ⟨c, hc⟩)
    · simp [hirqs] at hmem
    · rw [← hc, hplace c]
  refine ⟨S, hS, henq, fun hl => ?_, ?_⟩
  · have hin := hl hstate (by simp [hidle]) (by simp [hheld])
    simp [hlisted] at hin
  · rintro ((hcall | ⟨policy, hclear⟩ | ⟨policy, hlook | hready⟩ | ⟨chain, hs⟩) | ⟨hp, -⟩)
    · simp [hcalled] at hcall
    · cases hat _ hclear
    · cases hat _ hlook
    · cases hat _ hready
    · rw [hhandler] at hs
      cases hs
    · rw [hpend] at hp
      cases hp

/-- Thread 1 of core 0 waits for a mutex, and is preempted by thread 2 before it parks.  Core 1 hands it
the mutex meanwhile. -/
def handedWhileReady : List (WaitAct (fun _ : Fin 2 => Fin 3) Unit) :=
  [.core 0 .prepare, .core 0 (.commitToBlock fun _ => 0),
    .pass ⟨0, 1⟩ (.start () none), .pass ⟨0, 1⟩ .arm, .pass ⟨0, 1⟩ (.poll false false),
    .core 0 .irqEnter, .core 0 (.wake 2 .automatic), .core 0 .wakeClear, .core 0 .wakeLook,
    .core 0 (.wakeReady (fun _ => 0) .interrupt), .core 0 .irqReturn, .wake () (.commit 1)]

/-- The wake that follows is owed to it. -/
theorem pick_right_and_holders_listed_handed :
    ∃ S : Waits (fun _ : Fin 2 => Fin 3) Unit,
      run next (boot (fun _ => 0) (fun _ => Core.twoThreads) fun _ => [1, 2]) handedWhileReady = some S ∧
      (S.cores 0).sched.isEnqueued 1 = true ∧ (S.cores 0).sched.heldMask 1 = 1 ∧
      S.MakeReadyOwed ⟨0, 1⟩ := by
  have hok : Meets next ReadiesNone (boot (fun _ => 0) (fun _ => Core.twoThreads) fun _ => [1, 2])
      handedWhileReady := by
    refine ⟨trivial, trivial, trivial, trivial, trivial, trivial, trivial, trivial, trivial, ?_, trivial,
      trivial, trivial⟩
    intro t policy hexec hrun
    cases hexec
    cases hrun
  have heval : (run next (boot (fun _ => 0) (fun _ => Core.twoThreads) fun _ => [1, 2] :
      Waits (fun _ : Fin 2 => Fin 3) Unit) handedWhileReady).map (fun S =>
        ((S.cores 0).sched.state 1, (S.cores 0).sched.idleThread, (S.cores 0).sched.heldMask 1,
          (S.cores 0).sched.isListedHolder 1, (S.cores 0).sched.isEnqueued 1)) =
      some (.ready, 0, 1, false, true) := rfl
  obtain ⟨S, hS, hv⟩ := Option.map_eq_some_iff.mp heval
  simp only [Prod.mk.injEq] at hv
  obtain ⟨hstate, hidle, hheld, hlisted, henq⟩ := hv
  obtain ⟨-, howed, -, -⟩ := pick_right_and_holders_listed _ _ _ _ hok hS
  refine ⟨S, hS, henq, hheld, (howed ⟨0, 1⟩).resolve_left fun hl => ?_⟩
  have hin := hl hstate (by simp [hidle]) (by simp [hheld])
  simp [hlisted] at hin

end Cyros.Kernel.Waits
