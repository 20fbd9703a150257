import Cyros.Kernel.WakeView

/-!
# Holders and the matrix

A ready thread that holds a mutex belongs on the holder list: in the matrix it is filed at its base
priority, where the pick does not ask for its urgency.  `Hidden` is a holder in the matrix.

`Files` and `Spares` say what the scheduler's functions do about it: none of them files a holder in the
matrix or lists anybody else, and a request taken in leaves its thread where it belongs.
`Tidy.spares_makeReady` is where a hidden holder is found.
-/

namespace Cyros.Kernel.Sched

open Cyros.Lib Cyros.Lib.IntrusiveQueue

variable {Tid : Type} [DecidableEq Tid]

/-- A holder in the matrix. -/
def Hidden (s : Sched Tid) (t : Tid) : Prop := s.isEnqueued t = true ∧ s.heldMask t ≠ 0

/-- An operation that files no holder in the matrix, and lists nobody else. -/
structure Files (s s' : Sched Tid) : Prop where
  heldMask : s'.heldMask = s.heldMask
  enqueued : ∀ t, s'.isEnqueued t = true → s.isEnqueued t = true ∨ s.heldMask t = 0
  listed : ∀ t, s'.isListedHolder t = true → s.isListedHolder t = true ∨ s.heldMask t ≠ 0

/-- One that also loses no wake on its way to a holder in the matrix. -/
structure Spares (s s' : Sched Tid) : Prop extends Files s s' where
  live : ∀ t, s.Live t → s'.Live t
  /-- A request taken in has been heeded. -/
  pending : ∀ t, s.Live t → s'.pending t = s.pending t ∨ ¬ s'.Hidden t

variable {s s' s'' : Sched Tid} {t : Tid}

theorem Files.hidden (h : Files s s') (hh : s'.Hidden t) : s.Hidden t := by
  obtain ⟨henq, hheld⟩ := hh
  rw [h.heldMask] at hheld
  exact ⟨(h.enqueued t henq).resolve_right hheld, hheld⟩

theorem Spares.trans (h : Spares s s') (h' : Spares s' s'') : Spares s s'' := by
  refine ⟨⟨h'.heldMask.trans h.heldMask, fun t ht => ?_, fun t ht => ?_⟩,
    fun t ht => h'.live t (h.live t ht), fun t ht => ?_⟩
  · rcases h'.enqueued t ht with ht | ht
    · exact h.enqueued t ht
    · exact Or.inr (by rwa [← h.heldMask])
  · rcases h'.listed t ht with ht | ht
    · exact h.listed t ht
    · exact Or.inr (by rwa [← h.heldMask])
  · rcases h'.pending t (h.live t ht) with hp' | hh
    · rcases h.pending t ht with hp | hh
      · exact Or.inl (hp'.trans hp)
      · exact Or.inr fun hh' => hh (h'.hidden hh')
    · exact Or.inr hh

theorem files_of_same (hnext : s'.next = s.next) (hholderNext : s'.holderNext = s.holderNext)
    (hheld : s'.heldMask = s.heldMask) : Files s s' := by
  refine ⟨hheld, fun t ht => Or.inl ?_, fun t ht => Or.inl ?_⟩
  · unfold isEnqueued at ht ⊢
    rwa [← hnext]
  · unfold isListedHolder at ht ⊢
    rwa [← hholderNext]

/-- Nothing of it is read but the links, the masks and the requests. -/
theorem spares_of_same (hnext : s'.next = s.next) (hholderNext : s'.holderNext = s.holderNext)
    (hheld : s'.heldMask = s.heldMask) (hpending : s'.pending = s.pending)
    (hlive : ∀ t, s.Live t → s'.Live t) : Spares s s' :=
  ⟨files_of_same hnext hholderNext hheld, hlive, fun t _ => Or.inl (by rw [hpending])⟩

theorem spares_setDisposition (s : Sched Tid) (t : Tid) : Spares s (s.setDisposition t .none) :=
  spares_of_same rfl rfl rfl rfl (setDisposition_eases s t).live

theorem Spares.refl (s : Sched Tid) : Spares s s := spares_of_same rfl rfl rfl rfl fun _ => id

theorem Spares.foldl {β : Type} {f : Sched Tid → β → Sched Tid} {I : Sched Tid → Prop}
    (hf : ∀ s b, I s → I (f s b) ∧ Spares s (f s b)) (hs : I s) (bs : List β) :
    Spares s (bs.foldl f s) := by
  induction bs generalizing s with
  | nil => exact Spares.refl s
  | cons b bs ih =>
      obtain ⟨hI, he⟩ := hf s b hs
      exact he.trans (ih hI)

/-! ### Filing -/

omit [DecidableEq Tid] in
theorem Tidy.notMem_level {levels : Level → List Tid} {hs : List Tid}
    (hR : ∀ t, t ∈ s.readySet ↔ t ∈ levels (s.basePriority t) ∨ t ∈ hs) (ht : t ∉ s.readySet) :
    t ∉ levels (s.basePriority t) ∧ t ∉ hs := by
  rw [hR, not_or] at ht
  exact ht

/-- An admission puts in the matrix the thread itself, if it holds nothing, and nobody else. -/
theorem Tidy.admitThread_enqueued (h : Tidy s) (ht : t ∉ s.readySet) (atFront : Bool) {x : Tid}
    (hx : (s.admitThread t atFront).isEnqueued x = true) :
    s.isEnqueued x = true ∨ s.heldMask x = 0 := by
  obtain ⟨levels, hs, hf, hR⟩ := h.filed
  obtain ⟨hlevel, hholder⟩ := Tidy.notMem_level hR ht
  have hf' : Filed (s.setState t .ready) levels hs :=
    ⟨hf.level, hf.holders, hf.base, hf.bitmap, hf.sentinel, hf.holderSentinel, hf.apart⟩
  -- at the front or at the back, the level has one thread more
  have hmem : ∀ {xs : List Tid}, x ∈ Function.update levels (s.basePriority t) xs (s.basePriority x) →
      (∀ y, y ∈ xs → y = t ∨ y ∈ levels (s.basePriority t)) → s.heldMask t = 0 →
      s.isEnqueued x = true ∨ s.heldMask x = 0 := by
    intro xs hx hxs hheld
    rw [Function.update_apply] at hx
    split at hx
    · next hp =>
      rcases hxs x hx with rfl | hx
      · exact Or.inr hheld
      · exact Or.inl ((hf.isEnqueued_iff x).2 (by rwa [hp]))
    · exact Or.inl ((hf.isEnqueued_iff x).2 hx)
  simp only [Sched.admitThread] at hx
  split at hx
  · exact Or.inl hx
  · split at hx
    · next hnothing =>
      have hheld : s.heldMask t = 0 := by simpa [holdsNothing, setState] using hnothing
      split at hx
      · have hf'' := hf'.enqueueThreadFront hlevel hholder
        exact hmem ((hf''.isEnqueued_iff x).1 hx) (fun y hy => by simpa [setState] using hy) hheld
      · have hf'' := hf'.enqueueThread hlevel hholder
        exact hmem ((hf''.isEnqueued_iff x).1 hx) (fun y hy => by simpa [setState, or_comm] using hy) hheld
    · unfold Sched.linkHolder at hx
      split at hx <;> exact Or.inl hx

theorem Filed.linkHolder_listed {levels : Level → List Tid} {hs : List Tid} (hf : Filed s levels hs)
    (hlevel : t ∉ levels (s.basePriority t)) (hholder : t ∉ hs) {x : Tid}
    (hx : (s.linkHolder t).isListedHolder x = true) : s.isListedHolder x = true ∨ x = t := by
  have hmem := ((hf.linkHolder hlevel hholder).isListedHolder_iff x).1 hx
  rcases List.mem_append.1 hmem with hmem | hmem
  · exact Or.inl ((hf.isListedHolder_iff x).2 hmem)
  · exact Or.inr (List.mem_singleton.1 hmem)

/-- An admission lists the thread itself, if it holds something, and nobody else. -/
theorem Tidy.admitThread_listed (h : Tidy s) (ht : t ∉ s.readySet) (atFront : Bool) {x : Tid}
    (hx : (s.admitThread t atFront).isListedHolder x = true) :
    s.isListedHolder x = true ∨ s.heldMask x ≠ 0 := by
  obtain ⟨levels, hs, hf, hR⟩ := h.filed
  obtain ⟨hlevel, hholder⟩ := Tidy.notMem_level hR ht
  have hf' : Filed (s.setState t .ready) levels hs :=
    ⟨hf.level, hf.holders, hf.base, hf.bitmap, hf.sentinel, hf.holderSentinel, hf.apart⟩
  simp only [Sched.admitThread] at hx
  split at hx
  · exact Or.inl hx
  · split at hx
    · split at hx <;> exact Or.inl hx
    · next hholds =>
      rcases hf'.linkHolder_listed hlevel hholder hx with hx | rfl
      · exact Or.inl hx
      · exact Or.inr (by simpa [holdsNothing, setState] using hholds)

theorem Tidy.spares_admitThread (h : Tidy s) (ht : t ∉ s.readySet) (atFront : Bool) :
    Spares s (s.admitThread t atFront) := by
  have hsame := sameTcbs_admitThread s t atFront
  refine ⟨⟨hsame.heldMask, fun x hx => h.admitThread_enqueued ht atFront hx,
    fun x hx => h.admitThread_listed ht atFront hx⟩, (admitThread_eases s t atFront).live, fun x _ => Or.inl ?_⟩
  rw [hsame.pending]
  rfl

theorem Tidy.ready_of_enqueued (h : Tidy s) (ht : s.isEnqueued t = true) :
    t ∈ s.readySet := by
  rw [h.filed.mem_iff, ht]
  rfl

variable [Fintype Tid]

/-- The move of a thread from the matrix to the holder list. -/
theorem Tidy.spares_reroute (h : Tidy s) (ht : s.isEnqueued t = true) (hheld : s.heldMask t ≠ 0) :
    Spares s ((s.removeThread t).linkHolder t) ∧ ((s.removeThread t).linkHolder t).isEnqueued t = false := by
  obtain ⟨levels, hs, hf, hR⟩ := h.filed
  have hsame := (h.filed.reroute ht).2
  obtain ⟨ys, zs, hlevel, hf', hremoved⟩ := hf.removeThread ((hf.isEnqueued_iff t).1 ht)
  have hbase := hremoved.basePriority
  have hlinks : ∀ x, ((s.removeThread t).linkHolder t).isEnqueued x = (s.removeThread t).isEnqueued x := by
    intro x
    unfold Sched.linkHolder
    split <;> rfl
  have hnodup := (hf.level (s.basePriority t)).nodup
  rw [hlevel] at hnodup
  have hout : t ∉ ys ++ zs := by
    intro hmem
    rw [List.nodup_append] at hnodup
    rcases List.mem_append.1 hmem with hmem | hmem
    · exact hnodup.2.2 t hmem t List.mem_cons_self rfl
    · exact (List.nodup_cons.1 hnodup.2.1).1 hmem
  refine ⟨⟨⟨hsame.heldMask, fun x hx => Or.inl ?_, fun x hx => ?_⟩, fun x hx => ?_,
    fun x _ => Or.inl ?_⟩, ?_⟩
  · rw [hlinks, hf'.isEnqueued_iff, hbase, Function.update_apply] at hx
    rw [hf.isEnqueued_iff]
    split at hx
    · next hp =>
      rw [hp, hlevel]
      rcases List.mem_append.1 hx with hx | hx
      · exact List.mem_append_left _ hx
      · exact List.mem_append_right _ (List.mem_cons_of_mem _ hx)
    · exact hx
  · have hholder := hf.apart _ t ((hf.isEnqueued_iff t).1 ht)
    have hlist : (s.removeThread t).holderNext = s.holderNext := by
      unfold Sched.removeThread
      dsimp only
      split
      · unfold unmarkIfEmpty
        split <;> rfl
      · unfold unmarkIfEmpty
        split <;> rfl
    rcases hf'.linkHolder_listed (by rwa [hbase, Function.update_self]) hholder hx with hx | rfl
    · unfold isListedHolder at hx ⊢
      rw [hlist] at hx
      exact Or.inl hx
    · exact Or.inr hheld
  · unfold Live
    rwa [hsame.state, hsame.disposition]
  · rw [hsame.pending]
  · rw [← Bool.not_eq_true, hlinks, hf'.isEnqueued_iff, hbase, Function.update_self]
    exact hout

/-- **`make_ready` leaves the thread where it belongs**, wherever it was. -/
theorem Tidy.spares_makeReady (h : Tidy s) (fold : Tid → ℕ) (t : Tid) :
    Spares s (s.makeReady fold t).1 ∧ (s.Live t → ¬ (s.makeReady fold t).1.Hidden t) := by
  unfold Sched.makeReady
  by_cases hdone : s.state t = .terminated ∨ s.disposition t = .terminating
  · rw [if_pos hdone]
    exact ⟨Spares.refl s, fun hl => absurd hdone (by rw [not_or]; exact hl)⟩
  · rw [if_neg hdone]
    by_cases hfiled : (s.isEnqueued t || s.isListedHolder t) = true
    · rw [if_pos hfiled]
      by_cases hhidden : (s.isEnqueued t && !s.holdsNothing t) = true
      · rw [if_pos hhidden]
        rw [Bool.and_eq_true] at hhidden
        obtain ⟨hspares, hout⟩ := h.spares_reroute hhidden.1 (by simpa [holdsNothing] using hhidden.2)
        refine ⟨hspares, fun _ hh => ?_⟩
        rw [Hidden, hout] at hh
        exact Bool.false_ne_true hh.1
      · rw [if_neg hhidden]
        refine ⟨Spares.refl s, fun _ hh => hhidden ?_⟩
        rw [hh.1]
        simpa [holdsNothing] using hh.2
    · rw [if_neg hfiled]
      have hnot : t ∉ s.readySet := by rwa [h.filed.mem_iff]
      have hspares := h.spares_admitThread hnot false
      refine ⟨hspares, fun _ hh => ?_⟩
      exact hnot (h.ready_of_enqueued (hspares.hidden hh).1)

theorem Tidy.spares_globalReadyThread (h : Tidy s) (fold : Tid → ℕ) (t : Tid) :
    Spares s (s.globalReadyThread fold t) := by
  unfold Sched.globalReadyThread
  split
  · exact Spares.refl s
  · dsimp only
    split
    · exact spares_setDisposition s t
    · exact (spares_setDisposition s t).trans ((h.setDisposition t .none).spares_makeReady fold t).1

/-! ### The intake -/

theorem Tidy.spares_serviceIntake (h : Tidy s) (fold : Tid → ℕ) (t : Tid) :
    Spares s (s.serviceIntake fold t) := by
  obtain ⟨he, -, hpend, -⟩ := serviceIntake_eases h fold t
  have hother : ∀ x, x ≠ t → (s.serviceIntake fold t).pending x = s.pending x := by
    intro x hx
    rw [hpend x, if_neg hx]
  obtain ⟨htake, hw₁⟩ := h.takeRequests t
  by_cases hp : s.pending t = true
  · obtain ⟨hrev, hw₂⟩ := htake.revokePrepared t
    obtain ⟨hready, hdelivered⟩ := hrev.spares_makeReady fold t
    have heq : s.serviceIntake fold t = (((s.takeRequests t).revokePrepared t).makeReady fold t).1 := by
      rw [Sched.serviceIntake, if_pos hp]
    have hrevoked : ((s.takeRequests t).revokePrepared t).next = s.next ∧
        ((s.takeRequests t).revokePrepared t).heldMask = s.heldMask ∧
        ((s.takeRequests t).revokePrepared t).holderNext = s.holderNext := by
      unfold Sched.revokePrepared
      split <;> exact ⟨rfl, rfl, rfl⟩
    refine ⟨⟨by rw [heq, hready.heldMask, hrevoked.2.1], fun x hx => ?_, fun x hx => ?_⟩, he.live,
      fun x hx => ?_⟩
    · rw [heq] at hx
      rcases hready.enqueued x hx with hx | hx
      · unfold isEnqueued at hx ⊢
        rw [hrevoked.1] at hx
        exact Or.inl hx
      · exact Or.inr (by rwa [hrevoked.2.1] at hx)
    · rw [heq] at hx
      rcases hready.listed x hx with hx | hx
      · unfold isListedHolder at hx ⊢
        rw [hrevoked.2.2] at hx
        exact Or.inl hx
      · exact Or.inr (by rwa [hrevoked.2.1] at hx)
    · by_cases hxt : x = t
      · subst hxt
        refine Or.inr ?_
        rw [heq]
        apply hdelivered
        exact ⟨fun hs => hx.1 (((hw₁.trans hw₂).terminated_iff x).mp hs),
          fun hd => hx.2 (((hw₁.trans hw₂).terminating_iff x).mp hd)⟩
      · exact Or.inl (hother x hxt)
  · have heq : s.serviceIntake fold t = s.takeRequests t := by
      rw [Sched.serviceIntake, if_neg hp]
    have hsame : (s.serviceIntake fold t).pending = s.pending := by
      funext x
      by_cases hxt : x = t
      · rw [hpend x, if_pos hxt, hxt]
        exact (Bool.not_eq_true _ ▸ hp).symm
      · exact hother x hxt
    exact spares_of_same (by rw [heq]; rfl) (by rw [heq]; rfl) (by rw [heq]; rfl) hsame he.live

theorem Tidy.spares_drainIntake (h : Tidy s) (fold : Tid → ℕ) : Spares s (s.drainIntake fold) := by
  have h₀ : Tidy { s with intake := [] } := h.transfer rfl rfl rfl rfl rfl rfl rfl rfl
  have hfirst : Spares s { s with intake := [] } := spares_of_same rfl rfl rfl rfl fun _ => id
  refine hfirst.trans (Spares.foldl (I := Tidy) (fun r t hr => ?_) h₀ s.intake.reverse)
  exact ⟨(hr.serviceIntake fold t).1, hr.spares_serviceIntake fold t⟩

/-! ### Switches -/

theorem Tidy.spares_depart (h : Tidy s) {c : Tid} (hc : s.state c = .running) (fold : Tid → ℕ)
    (joiners : List Tid) (reason : Departure)
    (hexit : reason = .exited → s.disposition c = .terminating ∧ c ≠ s.idleThread) :
    Spares s (s.depart fold joiners c reason) := by
  have hlive := (depart_eases h hc fold joiners reason hexit).live
  have hnot : c ∉ s.readySet := fun hr => by simp [readySet, hc] at hr
  cases reason with
  | yielded => exact h.spares_admitThread hnot false
  | preempted => exact h.spares_admitThread hnot true
  | parked => exact spares_of_same rfl rfl rfl rfl hlive
  | exited =>
      obtain ⟨hterm, hidle⟩ := hexit rfl
      have ht : Tidy { s.setState c .terminated with raised := c :: s.raised } :=
        (h.setState_running hc hidle (by decide)).transfer rfl rfl rfl rfl rfl rfl rfl rfl
      have hfirst : Spares s { s.setState c .terminated with raised := c :: s.raised } := by
        refine spares_of_same rfl rfl rfl rfl fun x hx => ⟨?_, hx.2⟩
        have hxc : x ≠ c := fun heq => hx.2 (heq ▸ hterm)
        simpa [setState, hxc] using hx.1
      refine hfirst.trans (Spares.foldl (I := Tidy) (fun r j hr => ?_) ht joiners)
      exact ⟨(hr.globalReadyThread fold j).1, hr.spares_globalReadyThread fold j⟩

omit [Fintype Tid] in
theorem Tidy.popBestThread_enqueued (h : Tidy s) {x : Tid}
    (hx : s.popBestThread.2.isEnqueued x = true) : s.isEnqueued x = true := by
  obtain ⟨levels, hs, hf, -⟩ := h.filed
  obtain ⟨heq, -⟩ | ⟨p, t, ts, s', heq, hlevel, -, hf', hsame⟩ := hf.popBestThread
  · rwa [heq] at hx
  · rw [heq] at hx
    have hmem := (hf'.isEnqueued_iff x).1 hx
    rw [hsame.basePriority, Function.update_apply] at hmem
    rw [hf.isEnqueued_iff]
    split at hmem
    · next hp =>
      rw [hp, hlevel]
      exact List.mem_cons_of_mem _ hmem
    · exact hmem

theorem Tidy.pickNext_enqueued (h : Tidy s) (fold : Tid → ℕ) {x : Tid}
    (hx : (s.pickNext fold).2.isEnqueued x = true) : s.isEnqueued x = true := by
  obtain ⟨rotor, hpick⟩ := s.pickNext_cases fold
  have hturn : Tidy { s with tieRotor := rotor } := h.transfer rfl rfl rfl rfl rfl rfl rfl rfl
  obtain heq | ⟨y, -, heq⟩ := hpick
  · rw [heq] at hx
    exact hturn.popBestThread_enqueued hx
  · rw [heq] at hx
    -- taking a thread off the holder list leaves the links of the matrix alone
    have hsame : ({ s with tieRotor := rotor }.unlinkHolder y).next = s.next := by
      unfold Sched.unlinkHolder
      split
      · split <;> rfl
      · rfl
    unfold isEnqueued at hx ⊢
    rwa [hsame] at hx

omit [Fintype Tid] in
theorem popBestThread_holderNext (s : Sched Tid) : s.popBestThread.2.holderNext = s.holderNext := by
  unfold Sched.popBestThread unmarkIfEmpty
  split
  · rfl
  · split
    · dsimp only
      split <;> rfl
    · dsimp only
      split <;> rfl

theorem Tidy.unlinkHolder_listed (h : Tidy s) {x y : Tid}
    (hx : (s.unlinkHolder y).isListedHolder x = true) : s.isListedHolder x = true := by
  obtain ⟨levels, hs, hf, -⟩ := h.filed
  by_cases hy : s.isListedHolder y = true
  · obtain ⟨ys, zs, rfl⟩ := List.append_of_mem ((hf.isListedHolder_iff y).1 hy)
    have hmem := (hf.unlinkHolder.1.isListedHolder_iff x).1 hx
    rw [hf.isListedHolder_iff]
    rcases List.mem_append.1 hmem with hmem | hmem
    · exact List.mem_append_left _ hmem
    · exact List.mem_append_right _ (List.mem_cons_of_mem _ hmem)
  · rwa [Sched.unlinkHolder, if_neg hy] at hx

theorem Tidy.pickNext_listed (h : Tidy s) (fold : Tid → ℕ) {x : Tid}
    (hx : (s.pickNext fold).2.isListedHolder x = true) : s.isListedHolder x = true := by
  obtain ⟨rotor, hpick⟩ := s.pickNext_cases fold
  have hturn : Tidy { s with tieRotor := rotor } := h.transfer rfl rfl rfl rfl rfl rfl rfl rfl
  obtain heq | ⟨y, -, heq⟩ := hpick
  · rw [heq] at hx
    unfold isListedHolder at hx ⊢
    rwa [popBestThread_holderNext] at hx
  · rw [heq] at hx
    exact hturn.unlinkHolder_listed hx

theorem Tidy.spares_runNext (h : Tidy s) (hvacant : ∀ t, s.state t ≠ .running) (fold : Tid → ℕ) :
    Spares s (s.runNext fold) := by
  obtain ⟨he, hpending⟩ := runNext_eases h hvacant fold
  obtain ⟨p, hp⟩ := h.runNext hvacant fold
  have hlinks : (s.runNext fold).next = (s.pickNext fold).2.next ∧
      (s.runNext fold).holderNext = (s.pickNext fold).2.holderNext := by
    unfold Sched.runNext
    cases s.pickNext fold with
    | mk picked s₁ => cases picked <;> exact ⟨rfl, rfl⟩
  refine ⟨⟨hp.heldMask, fun x hx => Or.inl (h.pickNext_enqueued fold ?_),
    fun x hx => Or.inl (h.pickNext_listed fold ?_)⟩, he.live, fun x _ => Or.inl (by rw [hpending])⟩
  · unfold isEnqueued at hx ⊢
    rwa [hlinks.1] at hx
  · unfold isListedHolder at hx ⊢
    rwa [hlinks.2] at hx

theorem Vacates.spares {s₁ : Sched Tid} {fold : Tid → ℕ} {joiners : List Tid} {c : Tid} {reason : Departure}
    (h : Vacates s fold joiners c reason s₁) (htidy : Tidy s)
    (hexit : reason = .exited → s.disposition c = .terminating ∧ c ≠ s.idleThread) :
    Spares s (s₁.runNext fold) := by
  cases h with
  | departs hrun hdep =>
      exact (htidy.spares_depart hrun fold joiners reason hexit).trans
        (hdep.tidy.spares_runNext hdep.vacant fold)
  | nobody _ hvacant => exact htidy.spares_runNext hvacant fold

theorem Consistent.spares_decide {c : Tid} (h : Consistent s c) (fold : Tid → ℕ) (reason : Departure)
    (hexit : reason ≠ .exited) (hpark : reason = .parked → c ≠ s.idleThread ∧ s.disposition c ≠ .terminating) :
    Spares s (s.decide fold reason) := by
  obtain ⟨s₁, hv, heq⟩ := h.decide_vacates fold hexit hpark
  rw [heq]
  exact (h.tidy.spares_drainIntake fold).trans
    (hv.spares (h.tidy.drainIntake fold).1 fun hr => absurd hr hexit)

theorem Consistent.spares_rescheduleGuarded {c : Tid} (h : Consistent s c)
    (hidle : s.disposition c = .terminating → c ≠ s.idleThread) {fold : Tid → ℕ} {joiners : List Tid}
    (hs : s.rescheduleGuarded fold joiners c = some s') : Spares s s' := by
  obtain ⟨s₁, hv, rfl⟩ := h.rescheduleGuarded_vacates hidle hs
  refine hv.spares h.tidy fun hr => ?_
  have hterm := departureOf_eq_exited_iff.1 hr
  exact ⟨hterm, hidle hterm⟩

/-- At the start nobody is listed, since nobody holds anything. -/
theorem isListedHolder_boot (idle : Tid) (basePriority : Tid → Level) (threads : List Tid) (t : Tid) :
    (boot idle basePriority threads).isListedHolder t = false := by
  rw [← Bool.not_eq_true]
  intro ht
  have hfold := Spares.foldl (I := Tidy)
    (fun r x hr => ⟨(hr.makeReady (fun _ => 0) x).1, (hr.spares_makeReady (fun _ => 0) x).1⟩)
    (tidy_initialise idle basePriority) threads
  have hstart : (boot idle basePriority threads).isListedHolder t =
      (threads.foldl (fun s t => (s.makeReady (fun _ => 0) t).1)
        (initialise idle basePriority)).isListedHolder t := by
    unfold boot Sched.start
    have hpop := popBestThread_holderNext
      (threads.foldl (fun s t => (s.makeReady (fun _ => 0) t).1) (initialise idle basePriority))
    cases heq : (threads.foldl (fun s t => (s.makeReady (fun _ => 0) t).1)
        (initialise idle basePriority)).popBestThread with
    | mk picked s₁ =>
        rw [heq] at hpop
        unfold isListedHolder
        rw [← hpop]
        cases picked <;> rfl
  rw [hstart] at ht
  rcases hfold.listed t ht with hl | hheld
  · simp [isListedHolder, initialise] at hl
  · exact hheld rfl

end Cyros.Kernel.Sched
