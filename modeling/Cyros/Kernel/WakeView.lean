import Cyros.Kernel.Switching

/-!
# What the scheduler does to waiting threads

A thread that is about to block is `prepared`, and a thread that has is blocked.  A wake first takes the
wish to block back and then makes the thread ready; one from another core leaves a request, which the
core's next switch takes in.

`Sched.Eases` says what the scheduler's functions leave of the wishes, the blocked threads and the
requests: a request that is taken in leaves its thread neither blocked nor prepared, and only a park
blocks, of a thread that has no request on the intake.
-/

namespace Cyros.Kernel.Sched

open Cyros.Lib Cyros.Lib.IntrusiveQueue

variable {Tid : Type}

/-- A thread that is neither done nor about to be. -/
def Live (s : Sched Tid) (t : Tid) : Prop := s.state t ≠ .terminated ∧ s.disposition t ≠ .terminating

/-- What an operation that parks nobody but `parking` does to the threads that wait. -/
structure Eases (parking : Option Tid) (s s' : Sched Tid) : Prop where
  live : ∀ t, s.Live t → s'.Live t
  blocked : ∀ t, s'.state t = .blocked → s.state t = .blocked ∨ parking = some t
  prepared : ∀ t, s'.disposition t = .prepared → s.disposition t = .prepared
  /-- A request taken in has been heeded. -/
  pending : ∀ t, s.Live t → s'.pending t = s.pending t ∨
    (s'.state t ≠ .blocked ∧ s'.disposition t ≠ .prepared)
  posted : ∀ t, s'.pending t = true → s.pending t = true ∧ (t ∈ s.intake → t ∈ s'.intake)

namespace Eases

variable {s s' s'' : Sched Tid} {parking : Option Tid}

theorem refl (s : Sched Tid) : Eases none s s :=
  ⟨fun _ => id, fun _ => Or.inl, fun _ => id, fun _ _ => Or.inl rfl, fun _ h => ⟨h, id⟩⟩

theorem trans (h : Eases none s s') (h' : Eases parking s' s'')
    (hpark : ∀ c, parking = some c → s'.pending c = s.pending c) : Eases parking s s'' := by
  refine ⟨fun t ht => h'.live t (h.live t ht), fun t ht => ?_, fun t ht => h.prepared t (h'.prepared t ht),
    fun t ht => ?_, fun t ht => ?_⟩
  · rcases h'.blocked t ht with hb | hp
    · exact Or.inl ((h.blocked t hb).resolve_right nofun)
    · exact Or.inr hp
  · rcases h'.pending t (h.live t ht) with h₂ | h₂
    · rcases h.pending t ht with h₁ | ⟨hblocked, hprepared⟩
      · exact Or.inl (h₂.trans h₁)
      · by_cases hp : parking = some t
        · exact Or.inl (h₂.trans (hpark t hp))
        · exact Or.inr ⟨fun hb => hblocked ((h'.blocked t hb).resolve_right hp),
            fun hd => hprepared (h'.prepared t hd)⟩
    · exact Or.inr h₂
  · obtain ⟨hp', hi'⟩ := h'.posted t ht
    obtain ⟨hp, hi⟩ := h.posted t hp'
    exact ⟨hp, fun hmem => hi' (hi hmem)⟩

theorem trans_none (h : Eases none s s') (h' : Eases none s' s'') : Eases none s s'' :=
  h.trans h' nofun

theorem weaken (h : Eases none s s') (parking : Option Tid) : Eases parking s s' :=
  ⟨h.live, fun t ht => Or.inl ((h.blocked t ht).resolve_right nofun), h.prepared, h.pending, h.posted⟩

/-- What follows a park takes no request in. -/
theorem then_none (h : Eases parking s s') (h' : Eases none s' s'') : Eases parking s s'' := by
  refine ⟨fun t ht => h'.live t (h.live t ht), fun t ht => ?_, fun t ht => h.prepared t (h'.prepared t ht),
    fun t ht => ?_, fun t ht => ?_⟩
  · exact h.blocked t ((h'.blocked t ht).resolve_right nofun)
  · rcases h'.pending t (h.live t ht) with h₂ | h₂
    · rcases h.pending t ht with h₁ | ⟨hblocked, hprepared⟩
      · exact Or.inl (h₂.trans h₁)
      · exact Or.inr ⟨fun hb => hblocked ((h'.blocked t hb).resolve_right nofun),
          fun hd => hprepared (h'.prepared t hd)⟩
    · exact Or.inr h₂
  · obtain ⟨hp', hi'⟩ := h'.posted t ht
    obtain ⟨hp, hi⟩ := h.posted t hp'
    exact ⟨hp, fun hmem => hi' (hi hmem)⟩

/-- One operation after another, on the threads of a list. -/
theorem foldl {β : Type} {f : Sched Tid → β → Sched Tid} {I : Sched Tid → Prop}
    (hf : ∀ s b, I s → I (f s b) ∧ Eases none s (f s b)) (hs : I s) (bs : List β) :
    Eases none s (bs.foldl f s) := by
  induction bs generalizing s with
  | nil => exact refl s
  | cons b bs ih =>
      obtain ⟨hI, he⟩ := hf s b hs
      exact he.trans_none (ih hI)

end Eases

theorem Woken.eases_of {s s' : Sched Tid} (h : Woken s s')
    (hpending : ∀ t, s.Live t → s'.pending t = s.pending t ∨
      (s'.state t ≠ .blocked ∧ s'.disposition t ≠ .prepared))
    (hposted : ∀ t, s'.pending t = true → s.pending t = true ∧ (t ∈ s.intake → t ∈ s'.intake)) :
    Eases none s s' := by
  refine ⟨fun t ht => ?_, fun t ht => ?_, fun t ht => ?_, hpending, hposted⟩
  · exact ⟨fun hs => ht.1 ((h.terminated_iff t).mp hs), fun hd => ht.2 ((h.terminating_iff t).mp hd)⟩
  · rcases h.state t with hs | ⟨hs, -⟩
    · exact Or.inl (hs ▸ ht)
    · rw [hs] at ht
      cases ht
  · rcases h.disposition t with hd | ⟨hd, -⟩
    · exact hd ▸ ht
    · rw [hd] at ht
      cases ht

/-- A wake that takes no request in. -/
theorem Woken.eases {s s' : Sched Tid} (h : Woken s s') (hpending : s'.pending = s.pending)
    (hintake : s'.intake = s.intake) : Eases none s s' := by
  refine h.eases_of (fun t _ => Or.inl (by rw [hpending])) fun t ht => ?_
  rw [hpending] at ht
  rw [hintake]
  exact ⟨ht, id⟩

variable [DecidableEq Tid] [Fintype Tid]

/-! ### Wakes -/

theorem makeReady_requests {s : Sched Tid} (h : Tidy s) (fold : Tid → ℕ) (t : Tid) :
    (s.makeReady fold t).1.pending = s.pending ∧ (s.makeReady fold t).1.intake = s.intake := by
  obtain ⟨-, heq⟩ | ⟨-, -, hsame⟩ | ⟨-, -, -, heq⟩ := h.filed.makeReady fold t
  · rw [heq]
    exact ⟨rfl, rfl⟩
  · exact ⟨hsame.pending, hsame.intake⟩
  · rw [heq]
    have hsame := sameTcbs_admitThread s t false
    exact ⟨hsame.pending, hsame.intake⟩

theorem makeReady_eases {s : Sched Tid} (h : Tidy s) (fold : Tid → ℕ) (t : Tid) :
    Eases none s (s.makeReady fold t).1 :=
  (h.makeReady fold t).2.eases (makeReady_requests h fold t).1 (makeReady_requests h fold t).2

/-- `make_ready` leaves a live thread that does not run ready. -/
theorem makeReady_state {s : Sched Tid} (h : Tidy s) (fold : Tid → ℕ) {t : Tid} (hlive : s.Live t) :
    (s.makeReady fold t).1.state t = .ready := by
  obtain ⟨hdone, -⟩ | ⟨hready, -, hsame⟩ | ⟨-, -, -, heq⟩ := h.filed.makeReady fold t
  · rcases hdone with hs | hd
    · exact absurd hs hlive.1
    · exact absurd hd hlive.2
  · rw [hsame.state]
    exact hready.1
  · rw [heq, admitThread_state, Function.update_self]

theorem globalReadyThread_eases {s : Sched Tid} (h : Tidy s) (fold : Tid → ℕ) (t : Tid) :
    Eases none s (s.globalReadyThread fold t) := by
  refine (h.globalReadyThread fold t).2.eases ?_ ?_ <;>
  · simp only [Sched.globalReadyThread]
    split
    · rfl
    · split
      · rfl
      · first
        | exact (makeReady_requests (h.setDisposition t .none) fold t).1
        | exact (makeReady_requests (h.setDisposition t .none) fold t).2

omit [Fintype Tid] in
/-- The store that takes a wish to block back. -/
theorem setDisposition_eases (s : Sched Tid) (t : Tid) : Eases none s (s.setDisposition t .none) := by
  refine ⟨fun x hx => ⟨hx.1, ?_⟩, fun _ => Or.inl, fun x hx => ?_, fun _ _ => Or.inl rfl, fun _ hx => ⟨hx, id⟩⟩
  · simp only [setDisposition, Function.update_apply]
    split
    · decide
    · exact hx.2
  · simp only [setDisposition, Function.update_apply] at hx
    split at hx
    · cases hx
    · exact hx

/-! ### The intake -/

/-- One thread met on the intake.  What becomes of its request is said of every thread at once. -/
theorem serviceIntake_eases {s : Sched Tid} (h : Tidy s) (fold : Tid → ℕ) (t : Tid) :
    Eases none s (s.serviceIntake fold t) ∧
      (∀ x, s.Live x → (s.serviceIntake fold t).pending x = s.pending x ∨
        (s.serviceIntake fold t).state x = .ready) ∧
      (∀ x, (s.serviceIntake fold t).pending x = if x = t then false else s.pending x) ∧
      (s.serviceIntake fold t).intake = s.intake := by
  obtain ⟨htake, hw₁⟩ := h.takeRequests t
  have hpend : ∀ x, (s.takeRequests t).pending x = if x = t then false else s.pending x := by
    intro x
    simp [Sched.takeRequests, Function.update_apply]
  unfold Sched.serviceIntake
  split
  · next hpending =>
    obtain ⟨hrev, hw₂⟩ := htake.revokePrepared t
    obtain ⟨-, hw₃⟩ := hrev.makeReady fold t
    obtain ⟨hp₃, hi₃⟩ := makeReady_requests hrev fold t
    have hw := (hw₁.trans hw₂).trans hw₃
    have hrevoked : ((s.takeRequests t).revokePrepared t).pending = (s.takeRequests t).pending ∧
        ((s.takeRequests t).revokePrepared t).intake = s.intake := by
      unfold Sched.revokePrepared
      split <;> exact ⟨rfl, rfl⟩
    have hlive : s.Live t → ((s.takeRequests t).revokePrepared t).Live t := fun hl =>
      ⟨fun hs => hl.1 (((hw₁.trans hw₂).terminated_iff t).mp hs),
        fun hd => hl.2 (((hw₁.trans hw₂).terminating_iff t).mp hd)⟩
    have hpend' : ∀ x, (((s.takeRequests t).revokePrepared t).makeReady fold t).1.pending x =
        if x = t then false else s.pending x := by
      intro x
      rw [hp₃, hrevoked.1, hpend x]
    have hready : ∀ x, s.Live x →
        (((s.takeRequests t).revokePrepared t).makeReady fold t).1.pending x = s.pending x ∨
          (((s.takeRequests t).revokePrepared t).makeReady fold t).1.state x = .ready := by
      intro x hx
      by_cases hxt : x = t
      · subst hxt
        exact Or.inr (makeReady_state hrev fold (hlive hx))
      · exact Or.inl (by rw [hpend' x, if_neg hxt])
    refine ⟨hw.eases_of (fun x hx => ?_) fun x hx => ?_, hready, hpend', hi₃.trans hrevoked.2⟩
    · by_cases hxt : x = t
      · subst hxt
        refine Or.inr ⟨by rw [makeReady_state hrev fold (hlive hx)]; decide, fun hd => ?_⟩
        -- the wish to block was taken back before
        have hd₂ := (makeReady_eases hrev fold x).prepared x hd
        have hne : (s.takeRequests x).disposition x ≠ .terminating := hx.2
        simp [Sched.revokePrepared, hne, Sched.setDisposition] at hd₂
      · exact Or.inl (by rw [hpend' x, if_neg hxt])
    · rw [hpend' x] at hx
      split at hx
      · cases hx
      · exact ⟨hx, by rw [hi₃, hrevoked.2]; exact id⟩
  · next hpending =>
    have hsame : ∀ x, (s.takeRequests t).pending x = s.pending x := by
      intro x
      rw [hpend x]
      split
      · next hxt =>
        rw [hxt]
        simpa using hpending
      · rfl
    exact ⟨hw₁.eases (funext hsame) rfl, fun x _ => Or.inl (hsame x), hpend, rfl⟩

/-- The whole intake, taken in: a live thread with a request in it is ready. -/
theorem drainIntake_eases {s : Sched Tid} (h : Tidy s) (fold : Tid → ℕ) :
    Eases none s (s.drainIntake fold) ∧
      ∀ x, s.Live x → (s.drainIntake fold).pending x = s.pending x ∨
        (s.drainIntake fold).state x = .ready := by
  -- along the chain: what is said of one thread met holds of all, and the threads met have no request
  have hloop : ∀ (chain : List Tid) (r : Sched Tid), Tidy r →
      Eases none r (chain.foldl (fun s t => s.serviceIntake fold t) r) ∧
        (∀ x, r.Live x → (chain.foldl (fun s t => s.serviceIntake fold t) r).pending x = r.pending x ∨
          (chain.foldl (fun s t => s.serviceIntake fold t) r).state x = .ready) ∧
        ∀ x, (chain.foldl (fun s t => s.serviceIntake fold t) r).pending x = true → x ∉ chain := by
    intro chain
    induction chain with
    | nil => exact fun r _ => ⟨Eases.refl r, fun _ _ => Or.inl rfl, fun _ _ => List.not_mem_nil⟩
    | cons t chain ih =>
        intro r hr
        obtain ⟨he, hready, hpend, -⟩ := serviceIntake_eases hr fold t
        obtain ⟨hr₁, hw₁⟩ := hr.serviceIntake fold t
        obtain ⟨he', hready', hmet⟩ := ih (r.serviceIntake fold t) hr₁
        have htail := (hr₁.foldl (fun s t h => h.serviceIntake fold t) chain).2
        refine ⟨he.trans_none he', fun x hx => ?_, fun x hx => ?_⟩
        · rcases hready' x (he.live x hx) with hp | hs
          · rcases hready x hx with hp₁ | hs₁
            · exact Or.inl (hp.trans hp₁)
            · refine Or.inr ?_
              rcases htail.state x with hs | ⟨hs, -⟩
              · exact hs.trans hs₁
              · exact hs
          · exact Or.inr hs
        · have hx₁ := (he'.posted x hx).1
          rw [hpend x] at hx₁
          split at hx₁
          · cases hx₁
          · next hxt => simp [hxt, hmet x hx]
  have h₀ : Tidy { s with intake := [] } := h.transfer rfl rfl rfl rfl rfl rfl rfl rfl
  obtain ⟨he, hready, hmet⟩ := hloop s.intake.reverse { s with intake := [] } h₀
  refine ⟨⟨he.live, he.blocked, he.prepared, he.pending, fun x hx => ?_⟩, hready⟩
  refine ⟨(he.posted x hx).1, fun hmem => ?_⟩
  exact absurd (List.mem_reverse.mpr hmem) (hmet x hx)

/-! ### Departures and the pick -/

omit [Fintype Tid] in
theorem admitThread_eases (s : Sched Tid) (t : Tid) (atFront : Bool) :
    Eases none s (s.admitThread t atFront) := by
  have hsame := sameTcbs_admitThread s t atFront
  have hdisp : (s.admitThread t atFront).disposition = s.disposition := hsame.disposition
  have hstate := admitThread_state s t atFront
  refine ⟨fun x hx => ⟨?_, by rw [hdisp]; exact hx.2⟩, fun x hx => ?_, fun x hx => hdisp ▸ hx,
    fun x _ => Or.inl (by rw [hsame.pending]; rfl), fun x hx => ?_⟩
  · rw [hstate, Function.update_apply]
    split
    · decide
    · exact hx.1
  · rw [hstate, Function.update_apply] at hx
    split at hx
    · cases hx
    · exact Or.inl hx
  · rw [hsame.pending] at hx
    rw [hsame.intake]
    exact ⟨hx, id⟩

/-- A departure.  Only a terminating thread exits, and only a park blocks. -/
theorem depart_eases {s : Sched Tid} (h : Tidy s) {c : Tid} (hc : s.state c = .running)
    (fold : Tid → ℕ) (joiners : List Tid) (reason : Departure)
    (hexit : reason = .exited → s.disposition c = .terminating ∧ c ≠ s.idleThread) :
    Eases (if reason = .parked then some c else none) s (s.depart fold joiners c reason) := by
  cases reason with
  | yielded => exact admitThread_eases s c false
  | preempted => exact admitThread_eases s c true
  | parked =>
      refine ⟨fun x hx => ⟨?_, ?_⟩, fun x hx => ?_, fun x hx => ?_, fun x _ => Or.inl rfl, fun x hx => ⟨hx, id⟩⟩
      · simp only [Sched.depart, setThreadBlocked, setState, Function.update_apply]
        split
        · decide
        · exact hx.1
      · simp only [Sched.depart, setThreadBlocked, setState, setDisposition, Function.update_apply]
        split
        · decide
        · exact hx.2
      · simp only [Sched.depart, setThreadBlocked, setState, Function.update_apply] at hx
        split at hx
        · next hxc => exact Or.inr (by simp [hxc])
        · exact Or.inl hx
      · simp only [Sched.depart, setThreadBlocked, setState, setDisposition, Function.update_apply] at hx
        split at hx
        · cases hx
        · exact hx
  | exited =>
      obtain ⟨hterm, hidle⟩ := hexit rfl
      have ht : Tidy { s.setState c .terminated with raised := c :: s.raised } :=
        (h.setState_running hc hidle (by decide)).transfer rfl rfl rfl rfl rfl rfl rfl rfl
      have hfirst : Eases none s { s.setState c .terminated with raised := c :: s.raised } := by
        refine ⟨fun x hx => ⟨?_, hx.2⟩, fun x hx => ?_, fun x hx => hx, fun x _ => Or.inl rfl,
          fun x hx => ⟨hx, id⟩⟩
        · have hxc : x ≠ c := fun heq => hx.2 (heq ▸ hterm)
          simpa [setState, hxc] using hx.1
        · simp only [setState, Function.update_apply] at hx
          split at hx
          · cases hx
          · exact Or.inl hx
      refine hfirst.trans_none (Eases.foldl (I := Tidy) (fun r j hr => ?_) ht joiners)
      exact ⟨(hr.globalReadyThread fold j).1, globalReadyThread_eases hr fold j⟩

theorem runNext_eases {s : Sched Tid} (h : Tidy s) (hvacant : ∀ t, s.state t ≠ .running)
    (fold : Tid → ℕ) :
    Eases none s (s.runNext fold) ∧ (s.runNext fold).pending = s.pending := by
  obtain ⟨p, hp⟩ := h.runNext hvacant fold
  have hrequests : (s.runNext fold).pending = s.pending ∧ (s.runNext fold).intake = s.intake := by
    have hpick := (h.filed.pickNext fold).1
    unfold Sched.runNext
    cases heq : s.pickNext fold with
    | mk picked s₁ =>
        rw [heq] at hpick
        cases picked <;> exact ⟨hpick.pending, hpick.intake⟩
  refine ⟨⟨fun x hx => ⟨?_, by rw [hp.disposition]; exact hx.2⟩, fun x hx => ?_,
    fun x hx => hp.disposition ▸ hx, fun x _ => Or.inl (by rw [hrequests.1]), fun x hx => ?_⟩, hrequests.1⟩
  · rw [hp.state, Function.update_apply]
    split
    · decide
    · exact hx.1
  · rw [hp.state, Function.update_apply] at hx
    split at hx
    · cases hx
    · exact Or.inl hx
  · rw [hrequests.1] at hx
    rw [hrequests.2]
    exact ⟨hx, id⟩

/-! ### Whole switches -/

/-- A decision.  The thread that parks had no request on the intake. -/
theorem decide_eases {s : Sched Tid} {c : Tid} (h : Consistent s c) (fold : Tid → ℕ) (reason : Departure)
    (hexit : reason ≠ .exited) (hpark : reason = .parked → c ≠ s.idleThread ∧ s.Live c) :
    Eases (if reason = .parked then some c else none) s (s.decide fold reason) := by
  obtain ⟨he, hready⟩ := drainIntake_eases h.tidy fold
  obtain ⟨s₁, hv, heq⟩ := h.decide_vacates fold hexit fun hr => ⟨(hpark hr).1, (hpark hr).2.2⟩
  rw [heq]
  cases hv with
  | departs hrun hdep =>
      have hdeparts := depart_eases (h.tidy.drainIntake fold).1 hrun fold [] reason fun hr => absurd hr hexit
      obtain ⟨hnext, -⟩ := runNext_eases hdep.tidy hdep.vacant fold
      refine he.trans (hdeparts.then_none hnext) fun c' hc' => ?_
      split at hc'
      · next hr =>
        obtain rfl : c = c' := Option.some.inj hc'
        refine (hready c (hpark hr).2).resolve_right fun hs => ?_
        simp [hrun] at hs
      · cases hc'
  | nobody htidy hvacant => exact (he.trans_none (runNext_eases htidy hvacant fold).1).weaken _

theorem rescheduleGuarded_eases {s s' : Sched Tid} {c : Tid} (h : Consistent s c)
    (hidle : s.disposition c = .terminating → c ≠ s.idleThread) {fold : Tid → ℕ} {joiners : List Tid}
    (hs : s.rescheduleGuarded fold joiners c = some s') : Eases none s s' := by
  obtain ⟨s₁, hv, rfl⟩ := h.rescheduleGuarded_vacates hidle hs
  cases hv with
  | departs hrun hdep =>
      have hdeparts := depart_eases h.tidy hrun fold joiners (s.departureOf c) fun hr =>
        ⟨departureOf_eq_exited_iff.1 hr, hidle (departureOf_eq_exited_iff.1 hr)⟩
      rw [if_neg (departureOf_ne_parked s c)] at hdeparts
      exact hdeparts.trans_none (runNext_eases hdep.tidy hdep.vacant fold).1
  | nobody htidy hvacant => exact (runNext_eases htidy hvacant fold).1

/-! ### At the start -/

omit [Fintype Tid] in
/-- The first pick leaves the requests alone. -/
theorem start_pending {s : Sched Tid} (h : Tidy s) : s.start.pending = s.pending := by
  have hpop := h.filed.popBestThread.1
  unfold Sched.start
  cases heq : s.popBestThread with
  | mk picked s₁ =>
      rw [heq] at hpop
      cases picked <;> exact hpop.pending

/-- No thread has a request when the core starts. -/
theorem pending_boot (idle : Tid) (basePriority : Tid → Level) (threads : List Tid) (t : Tid) :
    (boot idle basePriority threads).pending t = false := by
  obtain ⟨s, hboot, htidy, he⟩ : ∃ s, boot idle basePriority threads = s.start ∧ Tidy s ∧
      Eases none (initialise idle basePriority) s :=
    ⟨_, rfl, ((tidy_initialise idle basePriority).foldl
      (fun _ t h => h.makeReady (fun _ => 0) t) threads).1,
      Eases.foldl (I := Tidy)
        (fun s t h => ⟨(h.makeReady (fun _ => 0) t).1, makeReady_eases h (fun _ => 0) t⟩)
        (tidy_initialise idle basePriority) threads⟩
  rw [hboot, start_pending htidy, ← Bool.not_eq_true]
  intro ht
  have hbefore : (initialise idle basePriority).pending t = true := (he.posted t ht).1
  simp [initialise] at hbefore

end Cyros.Kernel.Sched
