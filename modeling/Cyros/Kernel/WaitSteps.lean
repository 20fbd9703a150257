import Cyros.Kernel.WaitProtocol

/-!
# Steps of the waits

* `Nodes`: a node is on a queue only while its owner stands where it has armed it, and no node is on a
  queue twice.  So a wake finds nobody on a queue but threads inside a wait on it.
* `CoreActOf`: a step of the system is a step of at most one core, and says which.
-/

namespace Cyros.Kernel

/-- The steps of a pass that change a queue. -/
def PassAct.links {Tid Q : Type} : PassAct Tid Q → Bool
  | .arm | .armCancel | .disarm | .disarmCancel => true
  | _ => false

/-- What the thread waits for. -/
def WaitPlace.source {Q : Type} : WaitPlace Q → Option Q
  | .outside => none
  | .arming w _ | .armingCancel w _ | .polling w _ | .settling w _ _ | .committing w _ | .disarming w _ _
  | .disarmingCancel w _ _ _ | .polled w _ _ _ => some w

/-- What may end the wait before that. -/
def WaitPlace.cancel {Q : Type} : WaitPlace Q → Option Q
  | .outside => none
  | .arming _ cancel | .polling _ cancel | .settling _ cancel _ | .committing _ cancel
  | .disarming _ cancel _ | .polled _ cancel _ _ => cancel
  | .armingCancel _ c | .disarmingCancel _ c _ _ => some c

end Cyros.Kernel

namespace Cyros.Kernel.Waits

open Cyros.Lib Cyros.Lib.IntrusiveQueue

variable {n : ℕ} {T : Fin n → Type} {Q : Type}

/-- The queues `queue` hold nodes of threads that stand at `place`. -/
structure NodesOf (queue : Q → List ((Σ c, T c) × Bool)) (place : (Σ c, T c) → WaitPlace Q) : Prop where
  nodup : ∀ q, (queue q).Nodup
  armed : ∀ q, ∀ x ∈ queue q, (q, x.2) ∈ (place x.1).armed

def Nodes (S : Waits T Q) : Prop := NodesOf S.queue S.place

namespace NodesOf

variable {queue : Q → List ((Σ c, T c) × Bool)} {place : (Σ c, T c) → WaitPlace Q} {t : Σ c, T c}

section

variable [∀ c, DecidableEq (T c)]

/-- A thread moves, and keeps what it has armed. -/
theorem move (h : NodesOf queue place) {p : WaitPlace Q} (hp : ∀ x ∈ (place t).armed, x ∈ p.armed) :
    NodesOf queue (Function.update place t p) := by
  refine ⟨h.nodup, fun q x hx => ?_⟩
  by_cases hxt : x.1 = t
  · rw [hxt, Function.update_self]
    exact hp _ (hxt ▸ h.armed q x hx)
  · rw [Function.update_of_ne hxt]
    exact h.armed q x hx

variable [DecidableEq Q]

omit [∀ c, DecidableEq (T c)] in
/-- Fewer nodes. -/
theorem shrink (h : NodesOf queue place) {q : Q} {nodes : List ((Σ c, T c) × Bool)}
    (hsub : nodes.Sublist (queue q)) : NodesOf (Function.update queue q nodes) place := by
  refine ⟨fun r => ?_, fun r x hx => ?_⟩
  · by_cases hr : r = q
    · subst hr
      rw [Function.update_self]
      exact (h.nodup r).sublist hsub
    · rw [Function.update_of_ne hr]
      exact h.nodup r
  · by_cases hr : r = q
    · subst hr
      rw [Function.update_self] at hx
      exact h.armed r x (hsub.subset hx)
    · rw [Function.update_of_ne hr] at hx
      exact h.armed r x hx

omit [DecidableEq Q] [∀ c, DecidableEq (T c)] in
theorem nodup_link {priority : (Σ c, T c) → ℕ} {node : (Σ c, T c) × Bool}
    {nodes : List ((Σ c, T c) × Bool)} (hnodup : nodes.Nodup) (hnot : node ∉ nodes) :
    (link priority node nodes).Nodup := by
  induction nodes with
  | nil => simp [link]
  | cons first rest ih =>
      unfold link
      split
      · exact List.nodup_cons.2 ⟨hnot, hnodup⟩
      · obtain ⟨hfirst, hrest⟩ := List.nodup_cons.1 hnodup
        rw [List.mem_cons, not_or] at hnot
        refine List.nodup_cons.2 ⟨fun hmem => ?_, ih hrest hnot.2⟩
        rcases mem_link.1 hmem with he | hmem
        · exact hnot.1 he.symm
        · exact hfirst hmem

/-- The owner links a node and moves. -/
theorem grow (h : NodesOf queue place) {q : Q} {slot : Bool} {p : WaitPlace Q}
    {priority : (Σ c, T c) → ℕ} (hnot : (q, slot) ∉ (place t).armed)
    (hp : ∀ x ∈ (place t).armed, x ∈ p.armed) (hnew : (q, slot) ∈ p.armed) :
    NodesOf (Function.update queue q (link priority (t, slot) (queue q))) (Function.update place t p) := by
  have hmove := h.move (t := t) hp
  have hfresh : (t, slot) ∉ queue q := fun hmem => hnot (h.armed q _ hmem)
  refine ⟨fun r => ?_, fun r x hx => ?_⟩
  · by_cases hr : r = q
    · subst hr
      rw [Function.update_self]
      exact nodup_link (h.nodup r) hfresh
    · rw [Function.update_of_ne hr]
      exact h.nodup r
  · by_cases hr : r = q
    · subst hr
      rw [Function.update_self] at hx
      rcases mem_link.1 hx with rfl | hx
      · rw [Function.update_self]
        exact hnew
      · exact hmove.armed r x hx
    · rw [Function.update_of_ne hr] at hx
      exact hmove.armed r x hx

/-- The owner takes a node off and moves on without it. -/
theorem unlink (h : NodesOf queue place) {q : Q} {slot : Bool} {p : WaitPlace Q}
    (hp : ∀ x ∈ (place t).armed, x = (q, slot) ∨ x ∈ p.armed) :
    NodesOf (Function.update queue q ((queue q).erase (t, slot))) (Function.update place t p) := by
  have hshrink := h.shrink (q := q) (List.erase_sublist (a := (t, slot)))
  refine ⟨hshrink.nodup, fun r x hx => ?_⟩
  by_cases hxt : x.1 = t
  · have hmem := hshrink.armed r x hx
    rw [hxt] at hmem
    rw [hxt, Function.update_self]
    refine (hp _ hmem).resolve_left fun heq => ?_
    rw [Prod.mk.injEq] at heq
    obtain ⟨rfl, hslot⟩ := heq
    have hx' : x = (t, slot) := Prod.ext hxt hslot
    rw [Function.update_self, hx', (h.nodup r).mem_erase_iff] at hx
    exact hx.1 rfl
  · rw [Function.update_of_ne hxt]
    exact hshrink.armed r x hx

/-- **A step of a pass keeps nodes and places together.** -/
theorem passMove (h : NodesOf queue place) {priority : (Σ c, T c) → ℕ} {act : PassAct (T t.1) Q}
    {p : WaitPlace Q} {queue' : Q → List ((Σ c, T c) × Bool)}
    (hmove : PassMove t priority queue (place t) act p queue') :
    NodesOf queue' (Function.update place t p) := by
  generalize hplace : place t = old at hmove
  cases hmove with
  | startFirst w cancel => exact h.move (by simp [hplace, WaitPlace.armed])
  | startAgain w cancel chosen => exact h.move (by simp [hplace, WaitPlace.armed])
  | arm w => apply h.grow <;> simp [hplace, WaitPlace.armed]
  | armFirst w c => apply h.grow <;> simp [hplace, WaitPlace.armed]
  | armCancel w c => apply h.grow <;> simp [hplace, WaitPlace.armed]
  | pollEnds w cancel satisfied cancelled hends => exact h.move (by simp [hplace, WaitPlace.armed])
  | pollFails w cancel satisfied cancelled hends => exact h.move (by simp [hplace, WaitPlace.armed])
  | settle w cancel satisfied => exact h.move (by simp [hplace, WaitPlace.armed])
  | settleAfter w chosen => exact h.move (by simp [hplace, WaitPlace.armed])
  | commit w cancel fold => exact h.move (by simp [hplace, WaitPlace.armed])
  | disarm w satisfied => exact h.unlink (by simp [hplace, WaitPlace.armed])
  | disarmFirst w c satisfied => exact h.unlink (by simp [hplace, WaitPlace.armed])
  | disarmCancel w c satisfied chosen => exact h.unlink (by simp [hplace, WaitPlace.armed])
  | finish w cancel satisfied chosen => exact h.move (by simp [hplace, WaitPlace.armed])

end

end NodesOf

variable [∀ c, DecidableEq (T c)] [DecidableEq Q]

/-- A step of a pass by `t` moves no node but its own. -/
theorem PassMove.mem_of_ne {t : Σ c, T c} {priority : (Σ c, T c) → ℕ}
    {queue queue' : Q → List ((Σ c, T c) × Bool)} {p p' : WaitPlace Q} {act : PassAct (T t.1) Q}
    (h : PassMove t priority queue p act p' queue') {x : (Σ c, T c) × Bool} (hx : x.1 ≠ t) (q : Q) :
    x ∈ queue' q ↔ x ∈ queue q := by
  have hne : ∀ slot, x ≠ (t, slot) := fun slot he => hx (by rw [he])
  have hlink : ∀ (w : Q) slot, x ∈ Function.update queue w (link priority (t, slot) (queue w)) q ↔
      x ∈ queue q := by
    intro w slot
    by_cases hw : q = w
    · subst hw
      simp [mem_link, hne]
    · simp [hw]
  have herase : ∀ (w : Q) slot, x ∈ Function.update queue w ((queue w).erase (t, slot)) q ↔
      x ∈ queue q := by
    intro w slot
    by_cases hw : q = w
    · subst hw
      simp [List.mem_erase_of_ne (hne slot)]
    · simp [hw]
  cases h with
  | arm | armFirst | armCancel => exact hlink _ _
  | disarm | disarmFirst | disarmCancel => exact herase _ _
  | startFirst | startAgain | pollEnds | pollFails | settle | settleAfter | commit | finish => exact Iff.rfl

/-- The other steps of a pass leave the queues alone. -/
theorem PassMove.queue_of_unlinked {t : Σ c, T c} {priority : (Σ c, T c) → ℕ}
    {queue queue' : Q → List ((Σ c, T c) × Bool)} {p p' : WaitPlace Q} {act : PassAct (T t.1) Q}
    (h : PassMove t priority queue p act p' queue') (hact : act.links = false) : queue' = queue := by
  cases h with
  | arm | armFirst | armCancel | disarm | disarmFirst | disarmCancel => cases hact
  | startFirst | startAgain | pollEnds | pollFails | settle | settleAfter | commit | finish => rfl

omit [∀ c, DecidableEq (T c)] [DecidableEq Q] in
theorem takeWhere_sublist (pick : (Σ c, T c) → Bool) (room : ℕ) (nodes : List ((Σ c, T c) × Bool)) :
    (takeWhere pick room nodes).2.Sublist nodes := by
  fun_induction takeWhere pick room nodes with
  | case1 => exact List.Sublist.refl _
  | case2 => exact List.Sublist.refl _
  | case3 room first rest hpick walked ih => exact ih.cons first
  | case4 room first rest hpick walked ih => exact ih.cons_cons first

variable [∀ c, Fintype (T c)] {S S' : Waits T Q}

omit [∀ c, DecidableEq (T c)] [∀ c, Fintype (T c)] [DecidableEq Q] in
theorem walk_sublist (kind : WakeKind T) (nodes : List ((Σ c, T c) × Bool)) : (walk kind nodes).2.Sublist nodes := by
  cases kind with
  | one | commit => exact List.drop_sublist 1 nodes
  | filtered pick => exact takeWhere_sublist pick 8 nodes
  | raise => exact List.nil_sublist nodes

/-- A step of a core leaves the waits alone. -/
theorem next_core {c : Fin n} {a : CoreAct (T c)} (h : S.next (.core c a) = some S') :
    S'.place = S.place ∧ S'.queue = S.queue := by
  cases effect_of_next h
  exact ⟨rfl, rfl⟩

/-- So does a call. -/
theorem next_call {c : Fin n} {t : Σ c, T c} {policy : Policy} (h : S.next (.call c t policy) = some S') :
    S'.place = S.place ∧ S'.queue = S.queue := by
  cases effect_of_next h <;> exact ⟨rfl, rfl⟩

/-- A wake only takes nodes off its queue. -/
theorem next_wake {q : Q} {kind : WakeKind T} (h : S.next (.wake q kind) = some S') :
    S'.place = S.place ∧ ∃ nodes, nodes.Sublist (S.queue q) ∧ S'.queue = Function.update S.queue q nodes := by
  cases effect_of_next h with
  | take => exact ⟨rfl, _, walk_sublist kind _, rfl⟩
  | nobody => exact ⟨rfl, _, List.Sublist.refl _, (Function.update_eq_self q S.queue).symm⟩
  | commit hq => exact ⟨rfl, _, hq ▸ List.sublist_cons_self _ _, rfl⟩

theorem next_wake_queue_of_ne {q r : Q} {kind : WakeKind T} (h : S.next (.wake q kind) = some S') (hr : r ≠ q) :
    S'.queue r = S.queue r := by
  obtain ⟨-, nodes, -, hqueue⟩ := next_wake h
  rw [hqueue, Function.update_of_ne hr]

theorem next_pass {t : Σ c, T c} {act : PassAct (T t.1) Q} (h : S.next (.pass t act) = some S') :
    ∃ p, S'.place = Function.update S.place t p ∧
      PassMove t S.basePriority S.queue (S.place t) act p S'.queue := by
  cases effect_of_next h with
  | quiet _ _ hmove => exact ⟨_, rfl, hmove⟩
  | own _ _ hmove => exact ⟨_, rfl, hmove⟩

theorem next_pass_move {t : Σ c, T c} {act : PassAct (T t.1) Q} (h : S.next (.pass t act) = some S') :
    PassMove t S.basePriority S.queue (S.place t) act (S'.place t) S'.queue := by
  obtain ⟨p, hplace, hmove⟩ := next_pass h
  rw [hplace, Function.update_self]
  exact hmove

theorem next_pass_place_of_ne {t u : Σ c, T c} {act : PassAct (T t.1) Q}
    (h : S.next (.pass t act) = some S') (hu : u ≠ t) : S'.place u = S.place u := by
  obtain ⟨p, hplace, -⟩ := next_pass h
  rw [hplace, Function.update_of_ne hu]

/-- **One step keeps nodes and places together.** -/
theorem Nodes.next (h : Nodes S) {act : WaitAct T Q} (hstep : S.next act = some S') : Nodes S' := by
  cases effect_of_next hstep with
  | core | nobody | call | done | post => exact h
  | quiet _ _ hmove => exact h.passMove hmove
  | own _ _ hmove => exact h.passMove hmove
  | @take q kind => exact h.shrink (walk_sublist kind _)
  | commit hq => exact h.shrink (hq ▸ List.sublist_cons_self _ _)

omit [DecidableEq Q] in
theorem nodes_boot (idle : ∀ c, T c) (basePriority : ∀ c, T c → Level) (threads : ∀ c, List (T c)) :
    Nodes (boot idle basePriority threads : Waits T Q) :=
  ⟨fun _ => List.nodup_nil, fun _ _ hx => absurd hx List.not_mem_nil⟩

omit [∀ c, DecidableEq (T c)] [∀ c, Fintype (T c)] [DecidableEq Q] in
/-- Who has a node on a queue is inside a wait. -/
theorem Nodes.place_ne_outside (h : Nodes S) {q : Q} {x : (Σ c, T c) × Bool} (hx : x ∈ S.queue q) :
    S.place x.1 ≠ .outside := by
  intro hout
  have harmed := h.armed q x hx
  rw [hout] at harmed
  exact List.not_mem_nil harmed

omit [∀ c, DecidableEq (T c)] [∀ c, Fintype (T c)] [DecidableEq Q] in
/-- No wake of the thread is on its way where nobody has it to call and nothing goes on at its core. -/
theorem not_makeReadyOwed {t : Σ c, T c} (hcalled : S.called = []) (hirqs : (S.cores t.1).irqs = [])
    (hplace : ∀ u, (S.cores t.1).place u = .idle) (hhandler : (S.cores t.1).handler = .idle)
    (hpending : (S.cores t.1).sched.pending t.2 = false) : ¬ S.MakeReadyOwed t := by
  have hidle : ∀ x, (S.cores t.1).WakeAt x → x = .idle := by
    rintro x (hmem | ⟨u, rfl⟩)
    · simp [hirqs] at hmem
    · exact hplace u
  rintro ((hmem | ⟨policy, hat⟩ | ⟨policy, hat | hat⟩ | ⟨chain, hchain⟩) | ⟨hpend, -⟩)
  · simp [hcalled] at hmem
  · cases hidle _ hat
  · cases hidle _ hat
  · cases hidle _ hat
  · rw [hhandler] at hchain
    cases hchain
  · rw [hpending] at hpend
    cases hpend

/-! ### The steps of the cores -/

/-- **The core's part of a step**: `CoreActOf S act c a` says that `act` makes the step `a` of core `c`. -/
inductive CoreActOf (S : Waits T Q) : WaitAct T Q → (c : Fin n) → CoreAct (T c) → Prop
  | core (c : Fin n) (a : CoreAct (T c)) (hown : S.ownsAct c a = true) : CoreActOf S (.core c a) c a
  | prepare (t : Σ c, T c) (w : Q) (cancel : Option Q) (hrun : S.executes t = true) :
      CoreActOf S (.pass t (.start w cancel)) t.1 .prepare
  | unprepare (t : Σ c, T c) (hrun : S.executes t = true) : CoreActOf S (.pass t .settle) t.1 .unprepare
  | commit (t : Σ c, T c) (fold : T t.1 → ℕ) (hrun : S.executes t = true) :
      CoreActOf S (.pass t (.commit fold)) t.1 (.commitToBlock fold)
  | file (q : Q) (slot : BitVec 8) (first : (Σ c, T c) × Bool) (rest : List ((Σ c, T c) × Bool))
      (hq : S.queue q = first :: rest) :
      CoreActOf S (.wake q (.commit slot)) first.1.1 (.remoteFile first.1.2 slot)
  | call (t : Σ c, T c) (policy : Policy) : CoreActOf S (.call t.1 t policy) t.1 (.wake t.2 policy)
  | post (c : Fin n) (t : Σ c, T c) (policy : Policy) (hne : t.1 ≠ c) :
      CoreActOf S (.call c t policy) t.1 (.remoteClaim t.2)

omit [∀ c, Fintype (T c)] in
theorem coreActOf_pass {t : Σ c, T c} {act : PassAct (T t.1) Q} {a : CoreAct (T t.1)}
    (hrun : S.executes t = true) (hact : act.coreAct = some a) : CoreActOf S (.pass t act) t.1 a := by
  cases act with
  | start w cancel => exact Option.some.inj hact ▸ .prepare t w cancel hrun
  | settle => exact Option.some.inj hact ▸ .unprepare t hrun
  | commit fold => exact Option.some.inj hact ▸ .commit t fold hrun
  | arm | armCancel | poll | disarm | disarmCancel | finish => cases hact

/-- **A step leaves the cores alone, or is a step of one of them.**  A call that leaves them alone was for
a thread that is done. -/
theorem next_cores {act : WaitAct T Q} (h : S.next act = some S') :
    (S'.cores = S.cores ∧ ∀ c t policy, act = .call c t policy → ¬ (S.cores t.1).sched.Live t.2) ∨
      ∃ c a k, CoreActOf S act c a ∧ (S.cores c).next a = some k ∧
        S'.cores = Function.update S.cores c k := by
  cases effect_of_next h with
  | quiet | take | nobody => exact Or.inl ⟨rfl, by simp⟩
  | done _ _ hdone =>
      refine Or.inl ⟨rfl, fun c' t' policy' he => ?_⟩
      cases he
      exact hdone
  | core hown hk => exact Or.inr ⟨_, _, _, .core _ _ hown, hk, rfl⟩
  | own hrun hact _ hk => exact Or.inr ⟨_, _, _, coreActOf_pass hrun hact, hk, rfl⟩
  | commit hq hk => exact Or.inr ⟨_, _, _, .file _ _ _ _ hq, hk, rfl⟩
  | call _ hk => exact Or.inr ⟨_, _, _, .call _ _, hk, rfl⟩
  | post _ hne hk => exact Or.inr ⟨_, _, _, .post _ _ _ hne, hk, rfl⟩

/-- A thread to be called stays on the list until it is. -/
theorem mem_called_next {act : WaitAct T Q} (h : S.next act = some S') {t : Σ c, T c}
    (ht : t ∈ S.called) : t ∈ S'.called ∨ ∃ c policy, act = .call c t policy := by
  have hcall : ∀ {c u policy}, act = .call c u policy → S'.called = S.called.erase u →
      t ∈ S'.called ∨ ∃ c policy, act = .call c t policy := by
    intro c u policy hact hcalled
    by_cases hu : u = t
    · exact Or.inr ⟨c, policy, by rw [hact, hu]⟩
    · rw [hcalled]
      exact Or.inl ((List.mem_erase_of_ne (Ne.symm hu)).2 ht)
  cases effect_of_next h with
  | core | quiet | own | nobody => exact Or.inl ht
  | take | commit => exact Or.inl (List.mem_append_left _ ht)
  | call | done | post => exact hcall rfl rfl

/-- **A wake that is to come still comes** after every step but the next `prepare` and the exit of the
thread itself. -/
theorem Owed.next (hi : Inv S) {act : WaitAct T Q} (h : S.next act = some S') {t : Σ c, T c}
    (hlive : (S.cores t.1).sched.Live t.2)
    (hown : ∀ a : CoreAct (T t.1), CoreActOf S act t.1 a → a = .prepare ∨ a = .threadExit →
      (S.cores t.1).runningThread ≠ some t.2) :
    (S'.cores t.1).sched.Live t.2 ∧ (S.Owed t → S'.Owed t) := by
  obtain ⟨d, x⟩ := t
  obtain ⟨hcores, hdone⟩ | ⟨c, a, k, hact, hk, hcores⟩ := next_cores h
  · rw [hcores]
    refine ⟨hlive, ?_⟩
    rintro (hcall | hstands)
    · rcases mem_called_next h hcall with hcall | ⟨c, policy, rfl⟩
      · exact Or.inl hcall
      · exact absurd hlive (hdone c _ policy rfl)
    · refine Or.inr ?_
      rw [hcores]
      exact hstands
  · by_cases hd : d = c
    · subst hd
      obtain ⟨hlive', hkeeps⟩ := Core.WakeStands.next (hi.core d) hlive (hown a hact) hk
      rw [hcores, Function.update_self]
      refine ⟨hlive', fun howed => ?_⟩
      have hstands : Core.WakeStands k x → S'.Owed ⟨d, x⟩ := by
        intro hw
        refine Or.inr ?_
        rw [hcores, Function.update_self]
        exact hw
      rcases howed with hcall | hw
      · rcases mem_called_next h hcall with hcall | ⟨c, policy, rfl⟩
        · exact Or.inl hcall
        · cases hact with
          | call => exact hstands (.of_clearing (Core.clearing_wake hlive hk))
          | post _ _ _ hne => exact hstands (.of_pending (Core.pending_remoteClaim hk))
      · exact hstands (hkeeps hw)
    · rw [hcores, Function.update_of_ne hd]
      refine ⟨hlive, ?_⟩
      rintro (hcall | hw)
      · rcases mem_called_next h hcall with hcall | ⟨e, policy, rfl⟩
        · exact Or.inl hcall
        · cases hact <;> exact absurd rfl hd
      · refine Or.inr ?_
        rw [hcores, Function.update_of_ne hd]
        exact hw

end Cyros.Kernel.Waits
