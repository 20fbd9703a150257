import Cyros.Lib.Rotation
import Cyros.Lib.Run
import Cyros.Kernel.Pick

/-!
# Ties between holders and the matrix

Holders and threads that hold nothing stand in two queues without a common order.  Where the best of both are equally
urgent, `pick_with_holders` turns one bit of the tie rotor and takes them in turn.

A group of holders and non-holders of one urgency, all of them ready or running and none leaving the core but by a
yield, is served by the steps of the scheduler in any order: wakes, departures and picks, as the critical sections of
`set_thread_ready`, `decide` and `reschedule` make them.

* `Rotor`, `Filed.rotor_pickNext`: when a pick turns the bit of a level, and whom it takes then.
* `Lined`: the order of the group's threads in the two queues.
* `ties_alternate`: every second pick of the group is of a holder, and both sides go round.
-/

namespace Cyros.Kernel

open Cyros.Lib Cyros.Lib.IntrusiveQueue

namespace Sched

variable {Tid : Type}

/-! ### The rotor -/

theorem getLsbD_xor_bit (rotor : BitVec 32) (p q : Level) :
    (rotor ^^^ bit p).getLsbD q.val = (rotor.getLsbD q.val ^^ Decidable.decide (q = p)) := by
  rw [BitVec.getLsbD_xor, Bool.eq_iff_iff.2 (getLsbD_bit.trans decide_eq_true_iff.symm)]

theorem and_bit_eq_zero (rotor : BitVec 32) (p : Level) : rotor &&& bit p = 0 ↔ rotor.getLsbD p.val = false := by
  constructor
  · intro h
    have hbit : (rotor &&& bit p).getLsbD p.val = (0#32).getLsbD p.val := by rw [h]; rfl
    rw [BitVec.getLsbD_and, getLsbD_bit.2 rfl, Bool.and_true] at hbit
    exact hbit.trans BitVec.getLsbD_zero
  · intro h
    apply BitVec.eq_of_getLsbD_eq
    intro i hi
    by_cases hp : (⟨i, hi⟩ : Level) = p
    · subst hp
      rw [BitVec.getLsbD_and, h, Bool.false_and]
      exact BitVec.getLsbD_zero.symm
    · have hbit : (bit p).getLsbD i = false := by
        rw [← Bool.not_eq_true]
        exact fun hb => hp (getLsbD_bit.1 hb)
      rw [BitVec.getLsbD_and, hbit, Bool.and_false]
      exact BitVec.getLsbD_zero.symm

/-- The best level and the best holders are equally urgent. -/
structure Tied (urgency : Tid → ℕ) (levels : Level → List Tid) (hs : List Tid) (u : Level) : Prop where
  level : levels u ≠ []
  best : ∀ p < u, levels p = []
  holder : ∃ h ∈ hs, urgency h = u
  holders : ∀ h ∈ hs, u ≤ urgency h

/-- **What a pick does to the bit of a level**: it is turned at a tie there and left alone otherwise, and at a tie it
says which side is taken. -/
inductive Rotor (s : Sched Tid) (fold : Tid → ℕ) (levels : Level → List Tid) (hs : List Tid) (u : Level)
    (r : Option Tid × Sched Tid) : Prop
  | stays (hnot : ¬Tied (s.urgency fold) levels hs u)
      (hbit : r.2.tieRotor.getLsbD u.val = s.tieRotor.getLsbD u.val)
  | matrix (htied : Tied (s.urgency fold) levels hs u) (hbefore : s.tieRotor.getLsbD u.val = true)
      (hafter : r.2.tieRotor.getLsbD u.val = false) (hpick : ∀ x, r.1 = some x → ∃ p, x ∈ levels p)
  | holder (htied : Tied (s.urgency fold) levels hs u) (hbefore : s.tieRotor.getLsbD u.val = false)
      (hafter : r.2.tieRotor.getLsbD u.val = true) (hpick : ∀ x, r.1 = some x → x ∈ hs)

variable [DecidableEq Tid]

theorem popBestThread_tieRotor (s : Sched Tid) : s.popBestThread.2.tieRotor = s.tieRotor := by
  unfold Sched.popBestThread unmarkIfEmpty
  repeat' split
  all_goals rfl

variable {s s' : Sched Tid} {levels : Level → List Tid} {hs : List Tid}

section Rotor

variable [Fintype Tid]

theorem unlinkHolder_tieRotor (s : Sched Tid) (t : Tid) : (s.unlinkHolder t).tieRotor = s.tieRotor := by
  unfold Sched.unlinkHolder
  repeat' split
  all_goals rfl

/-- A tie at the best level, which the rotor decides. -/
theorem Filed.rotor_turn (hf : Filed s levels hs) {fold : Tid → ℕ} {u : Level} {h : Tid} (hh : h ∈ hs)
    (htied : Tied (s.urgency fold) levels hs u) : Rotor s fold levels hs u
      (if (s.tieRotor ^^^ bit u) &&& bit u = 0 then { s with tieRotor := s.tieRotor ^^^ bit u }.popBestThread
        else (some h, { s with tieRotor := s.tieRotor ^^^ bit u }.unlinkHolder h)) := by
  have hturned : s.tieRotor.getLsbD u.val = !(s.tieRotor ^^^ bit u).getLsbD u.val := by
    rw [getLsbD_xor_bit, decide_eq_true rfl, Bool.xor_true, Bool.not_not]
  split
  · next hzero =>
    rw [and_bit_eq_zero] at hzero
    rw [hzero] at hturned
    refine .matrix htied hturned (by rw [popBestThread_tieRotor]; exact hzero) fun x hx => ?_
    obtain ⟨heq, -⟩ | ⟨p, t, ts, s₁, heq, hlist, -⟩ := (hf.setTieRotor (s.tieRotor ^^^ bit u)).popBestThread
    · rw [heq] at hx
      cases hx
    · rw [heq] at hx
      cases hx
      exact ⟨p, by rw [hlist]; exact List.mem_cons_self⟩
  · next hone =>
    rw [and_bit_eq_zero, Bool.not_eq_false] at hone
    rw [hone] at hturned
    refine .holder htied hturned (by rw [unlinkHolder_tieRotor]; exact hone) fun x hx => ?_
    cases hx
    exact hh

theorem Filed.rotor_pickNext (hf : Filed s levels hs) (fold : Tid → ℕ) (hbound : ∀ h ∈ hs, s.urgency fold h < 0xFF)
    (u : Level) : Rotor s fold levels hs u (s.pickNext fold) := by
  unfold Sched.pickNext
  by_cases hhead : s.holders.head.isNone = true
  · rw [if_pos hhead]
    have hnil : hs = [] := hf.holders.head_eq_none_iff.mp (Option.isNone_iff_eq_none.mp hhead)
    refine .stays (fun htied => ?_) (by rw [popBestThread_tieRotor])
    obtain ⟨h, hh, -⟩ := htied.holder
    simp [hnil] at hh
  · rw [if_neg hhead]
    have hne : hs ≠ [] := fun hnil =>
      hhead (Option.isNone_iff_eq_none.mpr (hf.holders.head_eq_none_iff.mpr hnil))
    have hwalk : walk s.holderNext (Fintype.card Tid) s.holders.head = hs :=
      hf.holders.seg.walk_eq hf.holders.nodup.length_le_card
    obtain ⟨hnil, -⟩ | ⟨ys, h, zs, rfl, hbest, hfirst, hrest⟩ := bestHolder_spec s fold hs hbound
    · exact absurd hnil hne
    · have hmem : h ∈ ys ++ h :: zs := by simp
      have hleast : ∀ x ∈ ys ++ h :: zs, s.urgency fold h ≤ s.urgency fold x := by
        intro x hx
        rcases List.mem_append.mp hx with hx | hx
        · exact (hfirst x hx).le
        · rcases List.mem_cons.mp hx with rfl | hx
          · exact le_rfl
          · exact hrest x hx
      -- a tie at `u` is between the best level and the best holder
      have htied : ∀ base : Level, s.bestPriority = some base → Tied (s.urgency fold) levels (ys ++ h :: zs) u →
          u = base ∧ base.val = s.urgency fold h := by
        intro base hbase ht
        obtain ⟨hlevel, hbelow⟩ := hf.bestPriority_eq_some hbase
        obtain rfl : u = base := le_antisymm (le_of_not_gt fun hlt => hlevel (ht.best base hlt))
          (le_of_not_gt fun hlt => ht.level (hbelow u hlt))
        obtain ⟨x, hx, heq⟩ := ht.holder
        exact ⟨rfl, le_antisymm (ht.holders h hmem) (heq ▸ hleast x hx)⟩
      unfold Sched.pickWithHolders
      rw [hwalk, hbest]
      dsimp only
      cases hpri : s.bestPriority with
      | none => exact .stays (fun ht => ht.level (hf.bestPriority_eq_none hpri u)) (by rw [unlinkHolder_tieRotor])
      | some base =>
          dsimp only
          by_cases hlt : base.val < s.urgency fold h
          · rw [if_pos hlt]
            exact .stays (fun ht => hlt.ne (htied base hpri ht).2) (by rw [popBestThread_tieRotor])
          · rw [if_neg hlt]
            by_cases htie : base.val = s.urgency fold h
            · rw [if_pos htie]
              by_cases hu : u = base
              · subst hu
                obtain ⟨hlevel, hbelow⟩ := hf.bestPriority_eq_some hpri
                exact hf.rotor_turn hmem ⟨hlevel, hbelow, ⟨h, hmem, htie.symm⟩, fun x hx => htie.le.trans (hleast x hx)⟩
              · refine .stays (fun ht => hu (htied base hpri ht).1) ?_
                have hrotor := getLsbD_xor_bit s.tieRotor base u
                rw [decide_eq_false hu, Bool.xor_false] at hrotor
                split
                · rw [popBestThread_tieRotor]
                  exact hrotor
                · rw [unlinkHolder_tieRotor]
                  exact hrotor
            · rw [if_neg htie]
              exact .stays (fun ht => htie (htied base hpri ht).2) (by rw [unlinkHolder_tieRotor])

end Rotor

/-! ### A group in the two queues -/

/-- The threads of `N` hold nothing and are of level `u`, those of `H` hold something. -/
structure Group (N H : Finset Tid) (u : Level) (s : Sched Tid) : Prop where
  base : ∀ t ∈ N, s.basePriority t = u
  free : ∀ t ∈ N, s.heldMask t = 0
  held : ∀ t ∈ H, s.heldMask t ≠ 0
  idle : s.idleThread ∉ N ∪ H

/-- `q` is the order in which threads of `N` stand in level `u`, `q'` that in which threads of `H` stand on the holder
list, and they stand nowhere else. -/
def Lined (N H : Finset Tid) (u : Level) (s : Sched Tid) (q q' : List Tid) : Prop :=
  ∃ levels hs, Filed s levels hs ∧ (levels u).filter (· ∈ N) = q ∧ hs.filter (· ∈ H) = q' ∧ (∀ t ∈ N, t ∉ hs) ∧
    ∀ t ∈ H, ∀ p, t ∉ levels p

variable {N H : Finset Tid} {u : Level} {q q' : List Tid} {t : Tid}

theorem Group.not_mem (hg : Group N H u s) (ht : t ∈ N) : t ∉ H := fun hH => hg.held t hH (hg.free t ht)

theorem Group.congr (hg : Group N H u s) (hbase : s'.basePriority = s.basePriority) (hheld : s'.heldMask = s.heldMask)
    (hidle : s'.idleThread = s.idleThread) : Group N H u s' := by
  refine ⟨?_, ?_, ?_, ?_⟩
  · rw [hbase]
    exact hg.base
  · rw [hheld]
    exact hg.free
  · rw [hheld]
    exact hg.held
  · rw [hidle]
    exact hg.idle

namespace Lined

theorem transfer (h : Lined N H u s q q') (hnext : s'.next = s.next) (hholderNext : s'.holderNext = s.holderNext)
    (hmatrix : s'.matrix = s.matrix) (hholders : s'.holders = s.holders) (hbitmap : s'.bitmap = s.bitmap)
    (hbase : s'.basePriority = s.basePriority) : Lined N H u s' q q' := by
  obtain ⟨levels, hs, hf, hrest⟩ := h
  exact ⟨levels, hs, hf.transfer hnext hholderNext hmatrix hholders hbitmap hbase, hrest⟩

theorem enqueued (h : Lined N H u s q q') (hg : Group N H u s) (ht : t ∈ q) : s.isEnqueued t = true := by
  obtain ⟨levels, hs, hf, rfl, -⟩ := h
  obtain ⟨hmem, hN⟩ := List.mem_filter.1 ht
  rwa [hf.isEnqueued_iff, hg.base t (by simpa using hN)]

theorem listed (h : Lined N H u s q q') (ht : t ∈ q') : s.isListedHolder t = true := by
  obtain ⟨levels, hs, hf, -, rfl, -⟩ := h
  exact (hf.isListedHolder_iff t).2 (List.mem_filter.1 ht).1

/-- An admission puts a thread of the group at the end of its queue. -/
theorem admitThread (h : Lined N H u s q q') (hg : Group N H u s) (henq : s.isEnqueued t = false)
    (hlisted : s.isListedHolder t = false) (atFront : Bool) (hback : t ∈ N → atFront = false) :
    Lined N H u (s.admitThread t atFront) (q ++ [t].filter (· ∈ N)) (q' ++ [t].filter (· ∈ H)) := by
  obtain ⟨levels, hs, hf, rfl, rfl, hN, hH⟩ := h
  rw [← Bool.not_eq_true, hf.isEnqueued_iff] at henq
  rw [← Bool.not_eq_true, hf.isListedHolder_iff] at hlisted
  obtain ⟨levels', hs', hadmits, hf'⟩ := hf.admitThread henq hlisted atFront
  cases hadmits with
  | idle hidle =>
      have hnot := hg.idle
      rw [← hidle, Finset.mem_union, not_or] at hnot
      exact ⟨levels, hs, hf', by simp [hnot.1], by simp [hnot.2], hN, hH⟩
  | matrix _ hheld =>
      have htH : t ∉ H := fun ht => hg.held t ht hheld
      refine ⟨_, hs, hf', ?_, by simp [htH], hN, fun x hx p hmem => ?_⟩
      · by_cases htN : t ∈ N
        · rw [hback htN, hg.base t htN, Function.update_self]
          simp [htN]
        · rw [filter_update (by cases atFront <;> simp [htN])]
          simp [htN]
      · have hxt : x ≠ t := fun he => htH (he ▸ hx)
        rw [Function.update_apply] at hmem
        split at hmem
        · cases atFront <;> simp [hxt, hH x hx] at hmem
        · exact hH x hx p hmem
  | holder _ hheld =>
      have htN : t ∉ N := fun ht => hheld (hg.free t ht)
      refine ⟨levels, _, hf', by simp [htN], by simp, fun x hx hmem => ?_, hH⟩
      rcases List.mem_append.1 hmem with hmem | hmem
      · exact hN x hx hmem
      · exact htN (List.mem_singleton.1 hmem ▸ hx)

variable [Fintype Tid]

/-- A wake of a thread outside the group, or of one that is filed, leaves the order. -/
theorem makeReady (h : Lined N H u s q q') (hg : Group N H u s) (fold : Tid → ℕ)
    (hN : t ∈ N → s.isEnqueued t = true) (hH : t ∈ H → s.isListedHolder t = true) :
    Lined N H u (s.makeReady fold t).1 q q' := by
  obtain ⟨levels, hs, hf, hq, hq', hfree, hout⟩ := id h
  rcases hf.makeReady fold t with ⟨heq, -⟩ | ⟨heq, hmem, hheld⟩ | ⟨heq, -, -, hlevel, hholder⟩
  · rwa [heq]
  · -- a holder in the matrix is not of the group
    have htN : t ∉ N := fun ht => hheld (hg.free t ht)
    have htH : t ∉ H := fun ht => hout t ht _ hmem
    obtain ⟨ys, zs, hlevel, -, hf', -⟩ := hf.reroute hmem
    rw [heq]
    refine ⟨_, _, hf', ?_, by simpa [htH] using hq', fun x hx hmem => ?_, fun x hx p hmem => ?_⟩
    · rw [← hq]
      exact filter_update (by rw [hlevel]; simp [htN])
    · rcases List.mem_append.1 hmem with hmem | hmem
      · exact hfree x hx hmem
      · exact htN (List.mem_singleton.1 hmem ▸ hx)
    · rw [Function.update_apply] at hmem
      split at hmem
      · refine hout x hx (s.basePriority t) ?_
        rw [hlevel]
        simp only [List.mem_append, List.mem_cons] at hmem ⊢
        tauto
      · exact hout x hx p hmem
  · rw [← hf.isEnqueued_iff, Bool.not_eq_true] at hlevel
    rw [← hf.isListedHolder_iff, Bool.not_eq_true] at hholder
    have htN : t ∉ N := fun ht => by simp [hN ht] at hlevel
    have htH : t ∉ H := fun ht => by simp [hH ht] at hholder
    have hadmits := h.admitThread hg hlevel hholder false fun _ => rfl
    rw [heq]
    simpa [htN, htH] using hadmits

/-- The wakes of a termination leave the order, where all of the group are filed. -/
theorem foldl_globalReadyThread (h : Lined N H u s q q') (htidy : Tidy s) (hg : Group N H u s) (hN : ∀ t ∈ N, t ∈ q)
    (hH : ∀ t ∈ H, t ∈ q') (fold : Tid → ℕ) (joiners : List Tid) :
    Lined N H u (joiners.foldl (fun s j => s.globalReadyThread fold j) s) q q' := by
  induction joiners generalizing s with
  | nil => exact h
  | cons j joiners ih =>
      obtain ⟨htidy', hw⟩ := htidy.globalReadyThread fold j
      refine ih ?_ htidy' (hg.congr hw.basePriority hw.heldMask hw.idleThread)
      simp only [Sched.globalReadyThread]
      split
      · exact h
      · have h' : Lined N H u (s.setDisposition j .none) q q' := h.transfer rfl rfl rfl rfl rfl rfl
        have hg' : Group N H u (s.setDisposition j .none) := hg.congr rfl rfl rfl
        split
        · exact h'
        · exact h'.makeReady hg' fold (fun ht => h'.enqueued hg' (hN j ht)) fun ht => h'.listed (hH j ht)

/-- A thread of the group yields and goes to the end of its queue; whoever else departs leaves the order. -/
theorem depart (h : Lined N H u s q q') (htidy : Tidy s) (hg : Group N H u s) {c : Tid} (hc : s.state c = .running)
    (hN : ∀ t ∈ N, t ≠ c → t ∈ q) (hH : ∀ t ∈ H, t ≠ c → t ∈ q') (fold : Tid → ℕ) (joiners : List Tid)
    {reason : Departure} (hyield : c ∈ N ∪ H → reason = .yielded) (hexit : reason = .exited → c ≠ s.idleThread) :
    Lined N H u (s.depart fold joiners c reason) (q ++ [c].filter (· ∈ N)) (q' ++ [c].filter (· ∈ H)) := by
  have hnot : (s.isEnqueued c || s.isListedHolder c) = false := by
    rw [← Bool.not_eq_true, ← htidy.filed.mem_iff c]
    intro hr
    cases hr.1.symm.trans hc
  rw [Bool.or_eq_false_iff] at hnot
  have hother : reason ≠ .yielded → c ∉ N ∧ c ∉ H := by
    intro hne
    rw [← not_or, ← Finset.mem_union]
    exact fun hmem => hne (hyield hmem)
  cases reason with
  | yielded => exact h.admitThread hg hnot.1 hnot.2 false fun _ => rfl
  | preempted => exact h.admitThread hg hnot.1 hnot.2 true fun ht => absurd ht (hother (by decide)).1
  | parked =>
      obtain ⟨hcN, hcH⟩ := hother (by decide)
      simp only [Sched.depart, hcN, hcH, List.filter_cons, List.filter_nil, decide_false, Bool.false_eq_true, if_false,
        List.append_nil]
      exact h.transfer rfl rfl rfl rfl rfl rfl
  | exited =>
      obtain ⟨hcN, hcH⟩ := hother (by decide)
      have htidy' : Tidy { s.setState c .terminated with raised := c :: s.raised } :=
        (htidy.setState_running hc (hexit rfl) (by decide)).transfer rfl rfl rfl rfl rfl rfl rfl rfl
      have h' : Lined N H u { s.setState c .terminated with raised := c :: s.raised } q q' :=
        h.transfer rfl rfl rfl rfl rfl rfl
      have hwakes := h'.foldl_globalReadyThread htidy' (hg.congr rfl rfl rfl)
        (fun t ht => hN t ht fun he => hcN (he ▸ ht)) (fun t ht => hH t ht fun he => hcH (he ▸ ht)) fold joiners
      simp only [hcN, hcH, List.filter_cons, List.filter_nil, decide_false, Bool.false_eq_true, if_false, List.append_nil]
      exact hwakes

end Lined

/-! ### The pick -/

/-- **What a pick does to the group** where all of it is filed: it takes a thread outside the group and leaves the bit of
its level, or takes the first of the side that the bit turns to. -/
inductive Turn (N H : Finset Tid) (u : Level) (s : Sched Tid) (q q' : List Tid) (s' : Sched Tid) : Prop
  | other (x : Tid) (hx : x ∉ N ∪ H) (hcur : s'.currentThread = some x) (hlined : Lined N H u s' q q')
      (hbit : s'.tieRotor.getLsbD u.val = s.tieRotor.getLsbD u.val)
  | matrix (x : Tid) (rest : List Tid) (hq : q = x :: rest) (hx : x ∈ N) (hcur : s'.currentThread = some x)
      (hlined : Lined N H u s' rest q') (hbefore : s.tieRotor.getLsbD u.val = true)
      (hafter : s'.tieRotor.getLsbD u.val = false)
  | holder (x : Tid) (rest : List Tid) (hq' : q' = x :: rest) (hx : x ∈ H) (hcur : s'.currentThread = some x)
      (hlined : Lined N H u s' q rest) (hbefore : s.tieRotor.getLsbD u.val = false)
      (hafter : s'.tieRotor.getLsbD u.val = true)

/-- What a pick goes by: the level of a thread in the matrix, the urgency of any other. -/
def seenAt (s : Sched Tid) (fold : Tid → ℕ) (x : Tid) : ℕ :=
  if s.isEnqueued x then s.basePriority x else s.urgency fold x

/-- The matrix is asked: for a thread of a better level, or at a tie for the first of the group. -/
theorem Filed.turn_matrix (hf : Filed s levels hs) (hg : Group N H u s) (hfree : ∀ t ∈ N, t ∉ hs)
    (hout : ∀ t ∈ H, ∀ p, t ∉ levels p) (hlevel : levels u ≠ []) {fold : Tid → ℕ} {y : Tid} (hy : y ∈ hs)
    (hyu : s.urgency fold y = u) {p : Level} {x : Tid} {xs : List Tid} (hlist : levels p = x :: xs)
    (hbest : ∀ q < p, levels q = []) (hholders : ∀ h ∈ hs, p.val ≤ s.urgency fold h)
    (hrotor : Rotor s fold levels hs u (some x, s')) (hf' : Filed s' (Function.update levels p xs) hs)
    (hmore : x ∉ N ∪ H → s.seenAt fold x < u) :
    Turn N H u s ((levels u).filter (· ∈ N)) (hs.filter (· ∈ H)) (s'.setThreadRunning x) := by
  have hxp : x ∈ levels p := by rw [hlist]; exact List.mem_cons_self
  have hxH : x ∉ H := fun hx => hout x hx p hxp
  have hbase := hf.base p x hxp
  have hrun : Filed (s'.setThreadRunning x) (Function.update levels p xs) hs := hf'.transfer rfl rfl rfl rfl rfl rfl
  have hmem : ∀ z ∈ H, ∀ r, z ∉ Function.update levels p xs r := by
    intro z hz r hmem
    rw [Function.update_apply] at hmem
    split at hmem
    · exact hout z hz p (by rw [hlist]; exact List.mem_cons_of_mem x hmem)
    · exact hout z hz r hmem
  rcases (le_of_not_gt fun hlt => hlevel (hbest u hlt) : p ≤ u).lt_or_eq with hlt | rfl
  · have hnot : ¬Tied (s.urgency fold) levels hs u := fun ht => by simp [ht.best p hlt] at hxp
    have hxN : x ∉ N := fun hx => hlt.ne (hbase.symm.trans (hg.base x hx))
    cases hrotor with
    | stays _ hbit =>
        exact .other x (by simp [hxN, hxH]) rfl
          ⟨_, hs, hrun, by rw [Function.update_of_ne hlt.ne'], rfl, hfree, hmem⟩ hbit
    | matrix htied => exact absurd htied hnot
    | holder htied => exact absurd htied hnot
  · have hxN : x ∈ N := by
      by_contra hxN
      have hseen := hmore (by simp [hxN, hxH])
      rw [seenAt, if_pos ((hf.isEnqueued_iff x).2 (hbase ▸ hxp)), hbase] at hseen
      exact lt_irrefl _ hseen
    cases hrotor with
    | stays hnot => exact absurd ⟨hlevel, hbest, ⟨y, hy, hyu⟩, hholders⟩ hnot
    | matrix _ hbefore hafter =>
        exact .matrix x (xs.filter (· ∈ N)) (by simp [hlist, hxN]) hxN rfl
          ⟨_, hs, hrun, by rw [Function.update_self], rfl, hfree, hmem⟩ hbefore hafter
    | holder _ _ _ hpick => exact absurd (hpick x rfl) (hf.apart p x hxp)

/-- The holder list is asked: for a more urgent holder, or at a tie for the first of the group. -/
theorem Filed.turn_holder {ys zs : List Tid} {x : Tid} (hf : Filed s levels (ys ++ x :: zs))
    (hfree : ∀ t ∈ N, t ∉ ys ++ x :: zs) (hout : ∀ t ∈ H, ∀ p, t ∉ levels p) (hlevel : levels u ≠ [])
    {fold : Tid → ℕ} (hu : ∀ t ∈ H, s.urgency fold t = u) (hfirst : ∀ y ∈ ys, s.urgency fold x < s.urgency fold y)
    (hrest : ∀ z ∈ zs, s.urgency fold x ≤ s.urgency fold z)
    (hlevels : ∀ p : Level, levels p ≠ [] → s.urgency fold x ≤ p.val)
    (hrotor : Rotor s fold levels (ys ++ x :: zs) u (some x, s')) (hf' : Filed s' levels (ys ++ zs))
    (hmore : x ∉ N ∪ H → s.seenAt fold x < u) :
    Turn N H u s ((levels u).filter (· ∈ N)) ((ys ++ x :: zs).filter (· ∈ H)) (s'.setThreadRunning x) := by
  have hxhs : x ∈ ys ++ x :: zs := by simp
  have hxN : x ∉ N := fun hx => hfree x hx hxhs
  have hrun : Filed (s'.setThreadRunning x) levels (ys ++ zs) := hf'.transfer rfl rfl rfl rfl rfl rfl
  have hsub : ∀ y ∈ N, y ∉ ys ++ zs := by
    intro y hy hmem
    refine hfree y hy ?_
    simp only [List.mem_append, List.mem_cons] at hmem ⊢
    tauto
  rcases (hlevels u hlevel).lt_or_eq with hlt | heq
  · have hnot : ¬Tied (s.urgency fold) levels (ys ++ x :: zs) u := fun ht => absurd (ht.holders x hxhs) (by omega)
    have hxH : x ∉ H := fun hx => hlt.ne (hu x hx)
    cases hrotor with
    | stays _ hbit => exact .other x (by simp [hxN, hxH]) rfl ⟨levels, _, hrun, rfl, by simp [hxH], hsub, hout⟩ hbit
    | matrix htied => exact absurd htied hnot
    | holder htied => exact absurd htied hnot
  · have hapart : ∀ p, x ∉ levels p := fun p hp => hf.apart p x hp hxhs
    have hxH : x ∈ H := by
      by_contra hxH
      have hseen := hmore (by simp [hxN, hxH])
      rw [seenAt, if_neg (by rw [hf.isEnqueued_iff]; exact hapart _), heq] at hseen
      exact lt_irrefl _ hseen
    -- the holders before the pick are less urgent than the group
    have hys : ys.filter (· ∈ H) = [] := by
      rw [List.filter_eq_nil_iff]
      intro y hy hyH
      exact (hfirst y hy).ne (heq.trans (hu y (by simpa using hyH)).symm)
    have htied : Tied (s.urgency fold) levels (ys ++ x :: zs) u := by
      refine ⟨hlevel, fun p hlt => ?_, ⟨x, hxhs, heq⟩, fun z hz => ?_⟩
      · by_contra hne
        have hle : u.val ≤ p.val := heq ▸ hlevels p hne
        exact absurd hlt (not_lt.2 hle)
      · rw [List.mem_append, List.mem_cons] at hz
        rcases hz with hz | rfl | hz
        · exact heq ▸ (hfirst z hz).le
        · exact heq.ge
        · exact heq ▸ hrest z hz
    cases hrotor with
    | stays hnot => exact absurd htied hnot
    | matrix _ _ _ hpick => exact absurd (hpick x rfl).choose_spec (hapart _)
    | holder _ hbefore hafter =>
        exact .holder x (zs.filter (· ∈ H)) (by simp [hys, hxH]) hxH rfl
          ⟨levels, _, hrun, rfl, by simp [hys], hsub, hout⟩ hbefore hafter

variable [Fintype Tid]

/-- **A pick is a turn of the group**, where picks outside the group are of strictly more urgent threads. -/
theorem Lined.runNext (h : Lined N H u s q q') (hg : Group N H u s) (hN : q ≠ []) (hH : q' ≠ []) {fold : Tid → ℕ}
    (hfold : ∀ t, fold t ≤ s.basePriority t) (hu : ∀ t ∈ H, fold t = u)
    (hmore : ∀ x ∈ (s.runNext fold).currentThread, x ∉ N ∪ H → s.seenAt fold x < u) :
    Turn N H u s q q' (s.runNext fold) := by
  obtain ⟨levels, hs, hf, rfl, rfl, hfree, hout⟩ := h
  have hbound : ∀ x ∈ hs, s.urgency fold x < 0xFF := by
    intro x _
    have hlevel := (s.basePriority x).isLt
    have hle := hfold x
    unfold urgency
    split <;> omega
  have hurgency : ∀ x ∈ H, s.urgency fold x = u := fun x hx => by rw [urgency, if_neg (hg.held x hx), hu x hx]
  have hlevel : levels u ≠ [] := fun hnil => hN (by rw [hnil]; rfl)
  obtain ⟨y, hy⟩ := List.exists_mem_of_ne_nil _ hH
  obtain ⟨hyhs, hyH⟩ : y ∈ hs ∧ y ∈ H := by simpa using hy
  obtain ⟨levels', hs', htakes, hf', -⟩ := hf.takes_pickNext fold hbound
  have hrotor := hf.rotor_pickNext fold hbound u
  unfold Sched.runNext at hmore ⊢
  cases hpick : s.pickNext fold with
  | mk picked s₁ =>
    rw [hpick] at htakes hrotor hf' hmore
    cases htakes with
    | nobody hlevels _ => exact absurd (hlevels u) hlevel
    | matrix p x xs hlist hbest hholders =>
        exact hf.turn_matrix hg hfree hout hlevel hyhs (hurgency y hyH) hlist hbest hholders hrotor hf' (hmore x rfl)
    | holder ys zs x hlist hfirst hrest hlevels =>
        subst hlist
        exact hf.turn_holder hfree hout hlevel hurgency hfirst hrest hlevels hrotor hf' (hmore x rfl)

/-! ### The calls of a core -/

/-- A core's scheduler with the log of its picks. -/
structure Served (Tid : Type) where
  sched : Sched Tid
  picked : List Tid

/-- The calls that the critical sections of a core consist of.  A hand-over or a lock changes what a thread holds at any
time, and a thread its own disposition. -/
inductive Call (Tid : Type)
  | ready (fold : Tid → ℕ) (t : Tid)
  | hold (t : Tid) (mask : BitVec 8)
  | dispose (t : Tid) (d : Disposition)
  | depart (fold : Tid → ℕ) (joiners : List Tid) (reason : Departure)
  | pick (fold : Tid → ℕ)

/-- Whether the scheduler takes `c` off the core for this reason. -/
def mayLeave (s : Sched Tid) (c : Tid) (reason : Departure) : Bool :=
  s.state c = .running ∧ (reason = .parked → c ≠ s.idleThread ∧ s.disposition c ≠ .terminating) ∧
    (reason = .exited → c ≠ s.idleThread)

def serve (v : Served Tid) : Call Tid → Option (Served Tid)
  | .ready fold t => some { v with sched := (v.sched.makeReady fold t).1 }
  | .hold t mask => some { v with sched := { v.sched with heldMask := Function.update v.sched.heldMask t mask } }
  | .dispose t d => some { v with sched := v.sched.setDisposition t d }
  | .depart fold joiners reason =>
      v.sched.currentThread.bind fun c =>
        if v.sched.mayLeave c reason then some { v with sched := v.sched.depart fold joiners c reason } else none
  | .pick fold =>
      if ∀ c ∈ v.sched.currentThread, v.sched.state c ≠ .running then
        some ⟨v.sched.runNext fold, v.picked ++ (v.sched.runNext fold).currentThread.toList⟩
      else none

/-- **The group is served fairly**: it keeps what it holds, leaves the core only by a yield, the urgency of its holders is
that of its level, and picks outside the group are of strictly more urgent threads. -/
def Fair (N H : Finset Tid) (u : Level) (v : Served Tid) : Call Tid → Prop
  | .hold t mask => (t ∈ N → mask = 0) ∧ (t ∈ H → mask ≠ 0)
  | .depart _ _ reason => ∀ c ∈ v.sched.currentThread, c ∈ N ∪ H → reason = .yielded
  | .pick fold => (∀ t, fold t ≤ v.sched.basePriority t) ∧ (∀ t ∈ H, fold t = u) ∧
      ∀ x ∈ (v.sched.runNext fold).currentThread, x ∉ N ∪ H → v.sched.seenAt fold x < u
  | _ => True

instance (N H : Finset Tid) (u : Level) (v : Served Tid) : ∀ a, Decidable (Fair N H u v a)
  | .ready .. => inferInstanceAs (Decidable True)
  | .hold .. => inferInstanceAs (Decidable (_ ∧ _))
  | .dispose .. => inferInstanceAs (Decidable True)
  | .depart _ _ reason => inferInstanceAs (Decidable (∀ c ∈ v.sched.currentThread, c ∈ N ∪ H → reason = .yielded))
  | .pick fold => inferInstanceAs (Decidable ((∀ t, fold t ≤ v.sched.basePriority t) ∧ (∀ t ∈ H, fold t = u) ∧
      ∀ x ∈ (v.sched.runNext fold).currentThread, x ∉ N ∪ H → v.sched.seenAt fold x < u))

/-- What holds of the scheduler between calls. -/
structure Orderly (s : Sched Tid) : Prop where
  tidy : Tidy s
  only : ∀ t, s.state t = .running → s.currentThread = some t

variable {v v' : Served Tid} {a : Call Tid} {c : Tid}

namespace Orderly

theorem departed (ho : Orderly s) (hcur : s.currentThread = some c) {reason : Departure}
    (hleave : s.mayLeave c reason = true) (fold : Tid → ℕ) (joiners : List Tid) :
    Departed s (s.depart fold joiners c reason) c reason := by
  obtain ⟨hc, hpark, hexit⟩ := of_decide_eq_true hleave
  exact ho.tidy.depart hc (fun t ht => Option.some.inj ((ho.only t ht).symm.trans hcur)) fold joiners reason hpark hexit

omit [DecidableEq Tid] [Fintype Tid] in
theorem vacant (ho : Orderly s) (hidle : ∀ c ∈ s.currentThread, s.state c ≠ .running) (t : Tid) : s.state t ≠ .running :=
  fun ht => hidle t (ho.only t ht) ht

/-- No call disturbs the order. -/
theorem serve (ho : Orderly v.sched) (h : Sched.serve v a = some v') : Orderly v'.sched := by
  cases a with
  | ready fold t =>
      cases h
      obtain ⟨htidy, hw⟩ := ho.tidy.makeReady fold t
      exact ⟨htidy, fun x hx => hw.currentThread.trans (ho.only x (hw.running hx))⟩
  | hold t mask =>
      cases h
      exact ⟨ho.tidy.transfer rfl rfl rfl rfl rfl rfl rfl rfl, ho.only⟩
  | dispose t d =>
      cases h
      exact ⟨ho.tidy.setDisposition t d, ho.only⟩
  | depart fold joiners reason =>
      obtain ⟨c, hcur, h⟩ := Option.bind_eq_some_iff.1 h
      obtain ⟨hleave, rfl⟩ := of_guard h
      have hd := ho.departed hcur hleave fold joiners
      exact ⟨hd.tidy, fun x hx => absurd hx (hd.vacant x)⟩
  | pick fold =>
      obtain ⟨hidle, rfl⟩ := of_guard h
      obtain ⟨x, hx⟩ := ho.tidy.runNext (ho.vacant hidle) fold
      have hs := hx.settled (ho.vacant hidle)
      exact ⟨hs.tidy, fun t ht => hs.only t ht ▸ hs.currentThread⟩

end Orderly

/-! ### The two rings -/

/-- The thread of `A` that runs, if one does. -/
def onCore (A : Finset Tid) (s : Sched Tid) : List Tid :=
  s.currentThread.toList.filter fun c => c ∈ A ∧ s.state c = .running

/-- **The rings in which the group is served**: its threads in the order of their queues, and the one that runs last. -/
structure Upcoming (N H : Finset Tid) (u : Level) (s : Sched Tid) (rN rH : List Tid) : Prop where
  group : Group N H u s
  lined : ∃ q q', Lined N H u s q q' ∧ q ++ onCore N s = rN ∧ q' ++ onCore H s = rH
  free : ∀ t ∈ N, t ∈ rN
  held : ∀ t ∈ H, t ∈ rH

variable {A : Finset Tid} {rN rH : List Tid}

section OnCore

omit [Fintype Tid]

theorem mem_onCore : t ∈ onCore A s ↔ s.currentThread = some t ∧ t ∈ A ∧ s.state t = .running := by
  simp [onCore]

theorem onCore_congr (hcur : s'.currentThread = s.currentThread)
    (hstate : ∀ t, s'.state t = .running ↔ s.state t = .running) : onCore A s' = onCore A s := by
  simp only [onCore, hcur, hstate]

theorem onCore_running (hcur : s.currentThread = some c) (hc : s.state c = .running) :
    onCore A s = [c].filter (· ∈ A) := by
  simp [onCore, hcur, hc, List.filter_cons]

theorem onCore_vacant (hvacant : ∀ t, s.state t ≠ .running) : onCore A s = [] := by
  rw [List.eq_nil_iff_forall_not_mem]
  exact fun t ht => hvacant t (mem_onCore.1 ht).2.2

end OnCore

/-- A wake changes at most whether the woken thread runs. -/
theorem Filed.makeReady_running (hf : Filed s levels hs) (fold : Tid → ℕ) (ht : s.state t ≠ .running) (x : Tid) :
    (s.makeReady fold t).1.state x = .running ↔ s.state x = .running := by
  rcases hf.makeReady fold t with ⟨heq, -⟩ | ⟨heq, hmem, -⟩ | ⟨heq, -⟩
  · rw [heq]
  · obtain ⟨-, -, -, -, -, hsame⟩ := hf.reroute hmem
    rw [heq, hsame.state]
  · rw [heq, admitThread_state]
    by_cases hx : x = t
    · simp [hx, ht]
    · rw [Function.update_of_ne hx]

namespace Upcoming

/-- A wake leaves the rings: it files the running thread like a yield, and any other of the group is filed already. -/
theorem ready (h : Upcoming N H u s rN rH) (ho : Orderly s) (fold : Tid → ℕ) (t : Tid) :
    Upcoming N H u (s.makeReady fold t).1 rN rH := by
  obtain ⟨hg, ⟨q, q', hl, rfl, rfl⟩, hN, hH⟩ := h
  have hw := (ho.tidy.makeReady fold t).2
  refine ⟨hg.congr hw.basePriority hw.heldMask hw.idleThread, ?_, hN, hH⟩
  obtain ⟨levels, hs, hf, -⟩ := id hl
  by_cases ht : s.state t = .running
  · have hcur := ho.only t ht
    have hfiled : (s.isEnqueued t || s.isListedHolder t) = false := by
      rw [← Bool.not_eq_true, ← ho.tidy.filed.mem_iff t]
      exact fun hr => by cases hr.1.symm.trans ht
    rw [Bool.or_eq_false_iff] at hfiled
    rcases hf.makeReady fold t with ⟨heq, -⟩ | ⟨-, hmem, -⟩ | ⟨heq, -⟩
    · exact ⟨q, q', heq.symm ▸ hl, by rw [heq], by rw [heq]⟩
    · rw [← hf.isEnqueued_iff, hfiled.1] at hmem
      cases hmem
    · have hvacant : ∀ x, (s.admitThread t false).state x ≠ .running := by
        intro x hx
        rw [admitThread_state] at hx
        by_cases hxt : x = t
        · simp [hxt] at hx
        · rw [Function.update_of_ne hxt] at hx
          exact hxt (Option.some.inj ((ho.only x hx).symm.trans hcur))
      refine ⟨_, _, heq.symm ▸ hl.admitThread hg hfiled.1 hfiled.2 false fun _ => rfl, ?_, ?_⟩
      all_goals rw [heq, onCore_vacant hvacant, onCore_running hcur ht, List.append_nil]
  · have hcore : ∀ A, onCore A (s.makeReady fold t).1 = onCore A s := fun A =>
      onCore_congr hw.currentThread (hf.makeReady_running fold ht)
    have hnot : ∀ A, t ∉ onCore A s := fun A hmem => ht (mem_onCore.1 hmem).2.2
    refine ⟨q, q', hl.makeReady hg fold (fun hmem => hl.enqueued hg ?_) (fun hmem => hl.listed ?_), ?_, ?_⟩
    · exact (List.mem_append.1 (hN t hmem)).resolve_right (hnot N)
    · exact (List.mem_append.1 (hH t hmem)).resolve_right (hnot H)
    all_goals rw [hcore]

omit [Fintype Tid] in
theorem hold (h : Upcoming N H u s rN rH) {mask : BitVec 8} (hmask : (t ∈ N → mask = 0) ∧ (t ∈ H → mask ≠ 0)) :
    Upcoming N H u { s with heldMask := Function.update s.heldMask t mask } rN rH := by
  obtain ⟨hg, ⟨q, q', hl, hq⟩, hN, hH⟩ := h
  refine ⟨⟨hg.base, fun x hx => ?_, fun x hx => ?_, hg.idle⟩, ⟨q, q', hl.transfer rfl rfl rfl rfl rfl rfl, hq⟩, hN, hH⟩
  · show Function.update s.heldMask t mask x = 0
    rw [Function.update_apply]
    split
    · next heq => exact hmask.1 (heq ▸ hx)
    · exact hg.free x hx
  · show Function.update s.heldMask t mask x ≠ 0
    rw [Function.update_apply]
    split
    · next heq => exact hmask.2 (heq ▸ hx)
    · exact hg.held x hx

/-- So does a departure: whoever runs of the group yields. -/
theorem depart (h : Upcoming N H u s rN rH) (ho : Orderly s) (hcur : s.currentThread = some c) {reason : Departure}
    (hleave : s.mayLeave c reason = true) (hyield : c ∈ N ∪ H → reason = .yielded) (fold : Tid → ℕ)
    (joiners : List Tid) : Upcoming N H u (s.depart fold joiners c reason) rN rH := by
  obtain ⟨hg, ⟨q, q', hl, rfl, rfl⟩, hN, hH⟩ := h
  obtain ⟨hc, -, hexit⟩ := of_decide_eq_true hleave
  have hd := ho.departed hcur hleave fold joiners
  have hnot : ∀ t ≠ c, ∀ A, t ∉ onCore A s := by
    intro t htc A hmem
    exact htc (Option.some.inj ((mem_onCore.1 hmem).1.symm.trans hcur))
  refine ⟨hg.congr hd.basePriority hd.heldMask hd.idleThread, ?_, hN, hH⟩
  refine ⟨_, _, hl.depart ho.tidy hg hc (fun t ht htc => ?_) (fun t ht htc => ?_) fold joiners hyield hexit, ?_, ?_⟩
  · exact (List.mem_append.1 (hN t ht)).resolve_right (hnot t htc N)
  · exact (List.mem_append.1 (hH t ht)).resolve_right (hnot t htc H)
  all_goals rw [onCore_vacant hd.vacant, onCore_running hcur hc, List.append_nil]

/-- **A pick turns one of the rings by one, the one that the bit turns to**, or takes a thread outside the group. -/
theorem pick (h : Upcoming N H u s rN rH) (ho : Orderly s) (hvacant : ∀ t, s.state t ≠ .running) (hNe : N.Nonempty)
    (hHe : H.Nonempty) {fold : Tid → ℕ} (hfold : ∀ t, fold t ≤ s.basePriority t) (hu : ∀ t ∈ H, fold t = u)
    (hmore : ∀ x ∈ (s.runNext fold).currentThread, x ∉ N ∪ H → s.seenAt fold x < u) :
    ∃ x, (s.runNext fold).currentThread = some x ∧
      (x ∉ N ∪ H ∧ Upcoming N H u (s.runNext fold) rN rH ∧
          (s.runNext fold).tieRotor.getLsbD u.val = s.tieRotor.getLsbD u.val ∨
        (x ∈ N ∧ rN.head? = some x ∧ Upcoming N H u (s.runNext fold) (rN.rotate 1) rH ∧
          s.tieRotor.getLsbD u.val = true ∧ (s.runNext fold).tieRotor.getLsbD u.val = false) ∨
        x ∈ H ∧ rH.head? = some x ∧ Upcoming N H u (s.runNext fold) rN (rH.rotate 1) ∧
          s.tieRotor.getLsbD u.val = false ∧ (s.runNext fold).tieRotor.getLsbD u.val = true) := by
  obtain ⟨hg, ⟨q, q', hl, rfl, rfl⟩, hN, hH⟩ := h
  obtain ⟨y, hy⟩ := ho.tidy.runNext hvacant fold
  have hg' := hg.congr hy.basePriority hy.heldMask hy.idleThread
  have hcore : ∀ A, onCore A (s.runNext fold) = [y].filter (· ∈ A) := fun A =>
    onCore_running hy.currentThread (hy.settled hvacant).running
  rw [onCore_vacant hvacant, List.append_nil] at hN hH ⊢
  rw [onCore_vacant hvacant, List.append_nil]
  have hq : q ≠ [] := List.ne_nil_of_mem (hN _ hNe.choose_spec)
  have hq' : q' ≠ [] := List.ne_nil_of_mem (hH _ hHe.choose_spec)
  cases hl.runNext hg hq hq' hfold hu hmore with
  | other x hx hcur hlined hbit =>
      obtain rfl : y = x := Option.some.inj (hy.currentThread.symm.trans hcur)
      have hxs := not_or.1 (Finset.mem_union.not.1 hx)
      exact ⟨y, hcur, Or.inl ⟨hx, ⟨hg', ⟨q, q', hlined, by simp [hcore, hxs.1], by simp [hcore, hxs.2]⟩, hN, hH⟩, hbit⟩⟩
  | matrix x rest hlist hx hcur hlined hbefore hafter =>
      obtain rfl : y = x := Option.some.inj (hy.currentThread.symm.trans hcur)
      subst hlist
      refine ⟨y, hcur, Or.inr (Or.inl ⟨hx, rfl, ⟨hg', ⟨rest, q', hlined, ?_, ?_⟩, ?_, hH⟩, hbefore, hafter⟩)⟩
      · simp [hcore, hx]
      · simp [hcore, hg.not_mem hx]
      · exact fun t ht => List.mem_rotate.2 (hN t ht)
  | holder x rest hlist hx hcur hlined hbefore hafter =>
      obtain rfl : y = x := Option.some.inj (hy.currentThread.symm.trans hcur)
      subst hlist
      have hxN : y ∉ N := fun hxN => hg.not_mem hxN hx
      refine ⟨y, hcur, Or.inr (Or.inr ⟨hx, rfl, ⟨hg', ⟨q, rest, hlined, ?_, ?_⟩, hN, ?_⟩, hbefore, hafter⟩)⟩
      · simp [hcore, hxN]
      · simp [hcore, hx]
      · exact fun t ht => List.mem_rotate.2 (hH t ht)

end Upcoming

/-! ### A whole run -/

/-- The picks of the group, in order. -/
def Served.picks (v : Served Tid) (N H : Finset Tid) : List Tid := v.picked.filter (· ∈ N ∪ H)

/-- What holds as the group is served, from the rings `rN` and `rH` on. -/
structure InTurns (N H : Finset Tid) (u : Level) (rN rH : List Tid) (v : Served Tid) : Prop where
  orderly : Orderly v.sched
  upcoming : Upcoming N H u v.sched (rN.rotate ((v.picks N H).filter (· ∈ N)).length)
    (rH.rotate ((v.picks N H).filter (· ∈ H)).length)
  free : Turns rN ((v.picks N H).filter (· ∈ N))
  held : Turns rH ((v.picks N H).filter (· ∈ H))
  alternate : (v.picks N H).IsChain fun x y => (x ∈ N ↔ y ∉ N) ∧ (x ∈ H ↔ y ∉ H)
  last : ∀ x ∈ (v.picks N H).getLast?,
    (x ∈ N ↔ v.sched.tieRotor.getLsbD u.val = false) ∧ (x ∈ H ↔ v.sched.tieRotor.getLsbD u.val = true)

omit [Fintype Tid] in
theorem linkHolder_tieRotor (s : Sched Tid) (t : Tid) : (s.linkHolder t).tieRotor = s.tieRotor := by
  unfold Sched.linkHolder
  split <;> rfl

omit [Fintype Tid] in
theorem admitThread_tieRotor (s : Sched Tid) (t : Tid) (atFront : Bool) :
    (s.admitThread t atFront).tieRotor = s.tieRotor := by
  simp only [Sched.admitThread]
  repeat' split
  all_goals first | rfl | exact linkHolder_tieRotor _ t

theorem makeReady_tieRotor (s : Sched Tid) (fold : Tid → ℕ) (t : Tid) :
    (s.makeReady fold t).1.tieRotor = s.tieRotor := by
  have hremove : (s.removeThread t).tieRotor = s.tieRotor := by
    simp only [Sched.removeThread, unmarkIfEmpty]
    repeat' split
    all_goals rfl
  simp only [Sched.makeReady]
  repeat' split
  · rfl
  · exact (linkHolder_tieRotor _ t).trans hremove
  · rfl
  · exact admitThread_tieRotor s t false

theorem depart_tieRotor (s : Sched Tid) (fold : Tid → ℕ) (joiners : List Tid) (t : Tid) (reason : Departure) :
    (s.depart fold joiners t reason).tieRotor = s.tieRotor := by
  have hwake : ∀ (s : Sched Tid) (j : Tid), (s.globalReadyThread fold j).tieRotor = s.tieRotor := by
    intro s j
    simp only [Sched.globalReadyThread]
    repeat' split
    · rfl
    · rfl
    · exact makeReady_tieRotor _ fold j
  have hwakes : ∀ s : Sched Tid, (joiners.foldl (fun s j => s.globalReadyThread fold j) s).tieRotor = s.tieRotor := by
    induction joiners with
    | nil => exact fun s => rfl
    | cons j joiners ih => exact fun s => (ih _).trans (hwake s j)
  cases reason with
  | yielded => exact admitThread_tieRotor s t false
  | preempted => exact admitThread_tieRotor s t true
  | parked => rfl
  | exited => exact hwakes _

/-- A turn of one side keeps the order of the turns. -/
theorem InTurns.pick (hi : InTurns N H u rN rH v) (hNe : N.Nonempty) (hHe : H.Nonempty) {fold : Tid → ℕ}
    (hfair : Fair N H u v (.pick fold)) (h : Sched.serve v (.pick fold) = some v') : InTurns N H u rN rH v' := by
  have ho' := hi.orderly.serve h
  obtain ⟨hidle, rfl⟩ := of_guard h
  obtain ⟨hfold, hu, hmore⟩ := hfair
  obtain ⟨x, hcur, hturn⟩ := hi.upcoming.pick hi.orderly (hi.orderly.vacant hidle) hNe hHe hfold hu hmore
  have hpicks : Served.picks ⟨v.sched.runNext fold, v.picked ++ (v.sched.runNext fold).currentThread.toList⟩ N H =
      v.picks N H ++ [x].filter (· ∈ N ∪ H) := by
    rw [hcur]
    exact List.filter_append ..
  -- the bit says which side had the last turn, and the pick has turned it
  have hchain : ∀ b : Bool, v.sched.tieRotor.getLsbD u.val = !b → (x ∈ N ↔ b = false) → (x ∈ H ↔ b = true) →
      (v.picks N H ++ [x]).IsChain fun x y => (x ∈ N ↔ y ∉ N) ∧ (x ∈ H ↔ y ∉ H) := by
    intro b hb hN hH
    refine List.isChain_append.2 ⟨hi.alternate, List.isChain_singleton x, fun y hy z hz => ?_⟩
    cases hz
    have hlast := hi.last y hy
    rw [hb] at hlast
    rw [hlast.1, hlast.2, hN, hH]
    cases b <;> simp
  have hdisj := hi.upcoming.group.not_mem (t := x)
  rcases hturn with ⟨hx, hup, hbit⟩ | ⟨hx, hhead, hup, hbefore, hafter⟩ | ⟨hx, hhead, hup, hbefore, hafter⟩
  · rw [List.filter_singleton, decide_eq_false hx, cond_false, List.append_nil] at hpicks
    exact ⟨ho', by rwa [hpicks], by rw [hpicks]; exact hi.free, by rw [hpicks]; exact hi.held,
      by rw [hpicks]; exact hi.alternate, by rw [hpicks, hbit]; exact hi.last⟩
  · have hxH : x ∉ H := hdisj hx
    rw [List.filter_singleton, decide_eq_true (Finset.mem_union_left H hx), cond_true] at hpicks
    have hfree : (v.picks N H ++ [x]).filter (· ∈ N) = (v.picks N H).filter (· ∈ N) ++ [x] := by simp [hx]
    have hheld : (v.picks N H ++ [x]).filter (· ∈ H) = (v.picks N H).filter (· ∈ H) := by simp [hxH]
    refine ⟨ho', ?_, ?_, ?_, ?_, ?_⟩ <;> rw [hpicks]
    · rwa [hfree, hheld, List.length_append, List.length_singleton, ← List.rotate_rotate]
    · rw [hfree]
      exact hi.free.snoc hhead
    · rw [hheld]
      exact hi.held
    · exact hchain false hbefore (by simp [hx]) (by simp [hxH])
    · rw [List.getLast?_concat, hafter]
      simp [hx, hxH]
  · have hxN : x ∉ N := fun hxN => hdisj hxN hx
    rw [List.filter_singleton, decide_eq_true (Finset.mem_union_right N hx), cond_true] at hpicks
    have hfree : (v.picks N H ++ [x]).filter (· ∈ N) = (v.picks N H).filter (· ∈ N) := by simp [hxN]
    have hheld : (v.picks N H ++ [x]).filter (· ∈ H) = (v.picks N H).filter (· ∈ H) ++ [x] := by simp [hx]
    refine ⟨ho', ?_, ?_, ?_, ?_, ?_⟩ <;> rw [hpicks]
    · rwa [hfree, hheld, List.length_append, List.length_singleton, ← List.rotate_rotate]
    · rw [hfree]
      exact hi.free
    · rw [hheld]
      exact hi.held.snoc hhead
    · exact hchain true hbefore (by simp [hxN]) (by simp [hx])
    · rw [List.getLast?_concat, hafter]
      simp [hx, hxN]

theorem InTurns.serve (hi : InTurns N H u rN rH v) (hNe : N.Nonempty) (hHe : H.Nonempty) (hfair : Fair N H u v a)
    (h : Sched.serve v a = some v') : InTurns N H u rN rH v' := by
  have ho' := hi.orderly.serve h
  cases a with
  | ready fold t =>
      cases h
      refine ⟨ho', hi.upcoming.ready hi.orderly fold t, hi.free, hi.held, hi.alternate, ?_⟩
      rw [makeReady_tieRotor]
      exact hi.last
  | hold t mask =>
      cases h
      exact ⟨ho', hi.upcoming.hold hfair, hi.free, hi.held, hi.alternate, hi.last⟩
  | dispose t d =>
      cases h
      obtain ⟨hg, ⟨q, q', hl, hq⟩, hN, hH⟩ := hi.upcoming
      exact ⟨ho', ⟨hg.congr rfl rfl rfl, ⟨q, q', hl.transfer rfl rfl rfl rfl rfl rfl, hq⟩, hN, hH⟩, hi.free, hi.held,
        hi.alternate, hi.last⟩
  | depart fold joiners reason =>
      obtain ⟨c, hcur, h⟩ := Option.bind_eq_some_iff.1 h
      obtain ⟨hleave, rfl⟩ := of_guard h
      refine ⟨ho', hi.upcoming.depart hi.orderly hcur hleave (hfair c hcur) fold joiners, hi.free, hi.held, hi.alternate, ?_⟩
      rw [depart_tieRotor]
      exact hi.last
  | pick fold => exact hi.pick hNe hHe hfair h

omit [Fintype Tid] in
/-- A side of the group that waits in `l` or runs makes a ring with one place for each of its threads. -/
theorem Orderly.ring (ho : Orderly s) {l : List Tid} (hl : l.Nodup) (hready : ∀ t ∈ l, s.state t ≠ .running)
    (hall : ∀ t ∈ A, s.state t = .running ∨ t ∈ l) :
    (l.filter (· ∈ A) ++ onCore A s).length = A.card ∧ ∀ t ∈ A, t ∈ l.filter (· ∈ A) ++ onCore A s := by
  have hmem : ∀ t, t ∈ l.filter (· ∈ A) ++ onCore A s ↔ t ∈ A := by
    intro t
    rw [List.mem_append, List.mem_filter, mem_onCore, decide_eq_true_iff]
    refine ⟨fun h => h.elim And.right fun h => h.2.1, fun ht => ?_⟩
    rcases hall t ht with hrun | hwait
    · exact Or.inr ⟨ho.only t hrun, ht, hrun⟩
    · exact Or.inl ⟨hwait, ht⟩
  have hnodup : (l.filter (· ∈ A) ++ onCore A s).Nodup := by
    refine List.nodup_append.2 ⟨hl.filter _, ?_, ?_⟩
    · unfold onCore
      cases s.currentThread <;> exact List.Nodup.filter _ (by simp)
    · rintro x hx y hy rfl
      exact hready x (List.mem_filter.1 hx).1 (mem_onCore.1 hy).2.2
  have hset : (l.filter (· ∈ A) ++ onCore A s).toFinset = A := by
    ext t
    rw [List.mem_toFinset, hmem]
  refine ⟨?_, fun t => (hmem t).2⟩
  rw [← List.toFinset_card_of_nodup hnodup, hset]

omit [Fintype Tid] in
/-- The rings of a group whose threads all run or wait where they belong. -/
theorem Orderly.upcoming (ho : Orderly s) (hg : Group N H u s)
    (hN : ∀ t ∈ N, s.state t = .running ∨ s.isEnqueued t = true)
    (hH : ∀ t ∈ H, s.state t = .running ∨ s.isListedHolder t = true) :
    ∃ rN rH, Upcoming N H u s rN rH ∧ rN.length = N.card ∧ rH.length = H.card := by
  obtain ⟨levels, hs, hf, hR⟩ := ho.tidy.filed
  have hlevels : ∀ t p, t ∈ levels p → s.state t ≠ .running := by
    intro t p ht hrun
    have hready := (hR t).2 (Or.inl (by rwa [hf.base p t ht]))
    cases hready.1.symm.trans hrun
  have hholders : ∀ t ∈ hs, s.state t ≠ .running := fun t ht hrun => by cases ((hR t).2 (Or.inr ht)).1.symm.trans hrun
  have hfree : ∀ t ∈ N, t ∉ hs := by
    intro t ht hmem
    rcases hN t ht with hrun | henq
    · exact hholders t hmem hrun
    · exact hf.apart _ t ((hf.isEnqueued_iff t).1 henq) hmem
  have hheld : ∀ t ∈ H, ∀ p, t ∉ levels p := by
    intro t ht p hmem
    rcases hH t ht with hrun | hlisted
    · exact hlevels t p hmem hrun
    · exact hf.apart p t hmem ((hf.isListedHolder_iff t).1 hlisted)
  obtain ⟨hlenN, hallN⟩ := ho.ring (hf.level u).nodup (hlevels · u) fun t ht =>
    (hN t ht).imp_right fun h => hg.base t ht ▸ (hf.isEnqueued_iff t).1 h
  obtain ⟨hlenH, hallH⟩ := ho.ring hf.holders.nodup hholders fun t ht => (hH t ht).imp_right (hf.isListedHolder_iff t).1
  exact ⟨_, _, ⟨hg, ⟨_, _, ⟨levels, hs, hf, rfl, rfl, hfree, hheld⟩, rfl, rfl⟩, hallN, hallH⟩, hlenN, hlenH⟩

end Sched

end Cyros.Kernel
