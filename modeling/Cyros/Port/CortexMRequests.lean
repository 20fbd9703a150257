import Mathlib.Tactic.Tauto
import Cyros.Port.CortexMCalls

/-!
# Reschedule requests on Cortex-M

One pending bit carries two messages, a switch to make and the kernel to call, and `owed.reschedule` is
to keep them apart.  `pend_reschedule` sets it only when a switch is owed already.  A request pended
first, with the switch owed after it, is served by the switch alone: `request_lost_to_owed_switch`.
`request_reaches_handler` is what holds of every run in which a switch is first owed only with no request
outstanding.
-/

namespace Cyros.Port.CortexM

open Cyros.Lib

namespace Requests

variable {Ctx : Type}

/-! ### Requests on their way -/

/-- PendSV, from where it stands, calls the handler, or leaves itself pending with nothing owed. -/
def OnItsWay (p : Cpu Ctx) : Prop :=
  match p.pendsv with
  | .entered => p.owed.Heard ∨ p.pending = true
  | .switching _ | .clearing | .looking => p.owed.reschedule = true ∨ p.pending = true
  | .unflagging | .checking | .deferring | .undeferring | .calling => True
  | .idle | .handling | .returning => False

/-- The handler will be called before a thread at baseline executes. -/
inductive WillCall (s : Requests Ctx) : Prop where
  | pended (pending : s.cpu.pending = true) (heard : s.cpu.owed.Heard)
  | dispatching (onItsWay : OnItsWay s.cpu)
  | deferred (deferred : s.cpu.deferred = true) (dest : s.cpu.owed.dest = none)
      (held : s.cpu.preempt ≠ 0 ∨ ∃ f ∈ s.active, f.call = .check ∨ f.call = .clear)
  | repending (heard : s.cpu.owed.Heard) (f : Frame) (mem : f ∈ s.active) (call : f.call = .repend)

section WillCall

variable {s s' : Requests Ctx}

theorem OnItsWay.mono {p p' : Cpu Ctx} (h : OnItsWay p) (hpendsv : p'.pendsv = p.pendsv)
    (hpending : p.pending = true → p'.pending = true)
    (hheard : p.owed.Heard → p'.owed.Heard ∨ p'.pending = true)
    (hask : p.owed.reschedule = true → p'.owed.reschedule = true) : OnItsWay p' := by
  unfold OnItsWay at h ⊢
  rw [hpendsv]
  cases hp : p.pendsv with
  | entered =>
      simp only [hp] at h
      exact h.elim hheard fun h => Or.inr (hpending h)
  | switching | clearing | looking =>
      simp only [hp] at h
      exact h.imp hask hpending
  | _ => simp only [hp] at h ⊢

/-- The words a request is kept in stay, and every call in progress stays on the stack. -/
theorem WillCall.shift (hw : WillCall s) (howed : s'.cpu.owed = s.cpu.owed)
    (hpending : s.cpu.pending = true → s'.cpu.pending = true)
    (hpreempt : s'.cpu.preempt = s.cpu.preempt) (hdeferred : s'.cpu.deferred = s.cpu.deferred)
    (hway : OnItsWay s.cpu → OnItsWay s'.cpu)
    (hactive : ∀ f ∈ s.active, f.call ≠ .idle → f ∈ s'.active) : WillCall s' := by
  cases hw with
  | pended pending heard => exact .pended (hpending pending) (by rwa [howed])
  | dispatching onItsWay => exact .dispatching (hway onItsWay)
  | deferred deferred dest held =>
      refine .deferred (by rw [hdeferred, deferred]) (by rw [howed, dest]) ?_
      rw [hpreempt]
      refine held.imp_right ?_
      rintro ⟨f, hf, hcall⟩
      exact ⟨f, hactive f hf (by rcases hcall with h | h <;> simp [h]), hcall⟩
  | repending heard f mem call =>
      exact .repending (by rwa [howed]) f (hactive f mem (by simp [call])) call

variable [DecidableEq Ctx] {arch : Arch} {b : Build} {core : ℕ} {act : PortAct Ctx}

theorem Moves.active_eq {f f' : Frame} (hm : Moves arch s s' f f') :
    ∃ fs, s.active = f :: fs ∧ s'.active = f' :: fs := by
  cases hm with
  | handler fs gs _ _ active active' => exact ⟨gs, active, active'⟩
  | thread _ _ _ active active' => exact ⟨[], active, active'⟩

theorem WillCall.call {f f' : Frame} (hw : WillCall s) (hi : Inv arch s)
    (hc : CallCase arch s.cpu f act s'.cpu f') (hm : Moves arch s s' f f') : WillCall s' := by
  have he := hc.effect
  obtain ⟨fs, hactive, hactive'⟩ := hm.active_eq
  cases hw with
  | pended pending heard => exact .pended (he.pending pending) (he.heard heard)
  | dispatching onItsWay =>
      exact .dispatching (onItsWay.mono he.pendsv he.pending (fun h => Or.inl (he.heard h)) he.reschedule)
  | deferred deferred dest held =>
      have hdest : s'.cpu.owed.dest = none := he.dest.trans dest
      have harch : arch = .armv6m := by
        cases arch with
        | mainline => simp [hi.mainline rfl] at deferred
        | armv6m => rfl
      rcases hc.keeps_deferred harch deferred with hcall | ⟨hdeferred, hpreempt, hcall⟩
      · exact .repending (Or.inl hdest) f' (by simp [hactive']) hcall
      · refine .deferred hdeferred hdest ?_
        rcases held with hne | ⟨g, hg, hgcall⟩
        · exact (hpreempt hne).imp_right fun h => ⟨f', by simp [hactive'], Or.inl h⟩
        · rw [hactive'] at *
          rw [hactive] at hg
          rcases List.mem_cons.mp hg with rfl | hg
          · exact Or.inr ⟨f', List.mem_cons_self, hcall hgcall⟩
          · exact Or.inr ⟨g, List.mem_cons_of_mem _ hg, hgcall⟩
  | repending heard g mem call =>
      rw [hactive] at mem
      rcases List.mem_cons.mp mem with rfl | mem
      · exact .pended (hc.pending_of_repend call) (he.heard heard)
      · exact .repending (he.heard heard) g (by simp [hactive', mem]) call

omit [DecidableEq Ctx] in
/-- A switch first owed keeps a request only in PendSV, which looks at the owed switch and then at
itself being pending. -/
theorem WillCall.dispatching_of_unasked (hw : WillCall s) (h : s.Unasked) : OnItsWay s.cpu := by
  obtain ⟨hpending, hdeferred, -, hrepend⟩ := h
  cases hw with
  | pended pending => simp [hpending] at pending
  | dispatching onItsWay => exact onItsWay
  | deferred deferred => simp [hdeferred] at deferred
  | repending heard f mem call => exact absurd call (hrepend f mem)

theorem WillCall.threadStep (hw : WillCall s) (hi : Inv arch s) (hok : s.OwesUnasked act)
    (h : s.threadStep arch act = some s') : WillCall s' := by
  unfold Requests.threadStep at h
  split at h
  · next hruns =>
    split at h
    · cases h
      exact hw.shift rfl id rfl rfl id fun f hf _ => hf
    · cases h
      exact hw.shift rfl id rfl rfl id fun f hf _ => hf
    · split at h
      · have hway := hw.dispatching_of_unasked (hok rfl (hi.dest_of_threadRuns hruns.1))
        simp [OnItsWay, (threadRuns_iff.mp hruns.1).2.1] at hway
      · cases h
    · split at h
      · cases h
        refine hw.shift rfl (fun _ => rfl) rfl rfl ?_ fun f hf _ => hf
        exact fun hway => hway.mono rfl (fun _ => rfl) Or.inl id
      · cases h
    · cases h
  · cases h

omit [DecidableEq Ctx] in
theorem WillCall.oweSwitch {source dest : Ctx} (hw : WillCall s)
    (hok : s.OwesUnasked (.oweSwitch source dest)) :
    WillCall { s with cpu := s.cpu.oweSwitch source dest } := by
  have hway : OnItsWay s.cpu → OnItsWay (s.cpu.oweSwitch source dest) :=
    fun h => h.mono rfl (fun _ => rfl) (fun _ => Or.inr rfl) id
  by_cases hdest : s.cpu.owed.dest = none
  · exact .dispatching (hway (hw.dispatching_of_unasked (hok rfl hdest)))
  · cases hw with
    | pended pending heard => exact .pended rfl (Or.inr (heard.resolve_left hdest))
    | dispatching onItsWay => exact .dispatching (hway onItsWay)
    | deferred deferred dest => exact absurd dest hdest
    | repending heard f mem call => exact .repending (Or.inr (heard.resolve_left hdest)) f mem call

/-- A request with no call in progress: pended, in PendSV's hands, or deferred behind a raised depth. -/
def InWords (p : Cpu Ctx) : Prop :=
  p.pending = true ∧ p.owed.Heard ∨ OnItsWay p ∨ p.deferred = true ∧ p.owed.dest = none ∧ p.preempt ≠ 0

omit [DecidableEq Ctx] in
theorem WillCall.inWords (hw : WillCall s) (hactive : ∀ f ∈ s.active, f.call = .idle) :
    InWords s.cpu := by
  cases hw with
  | pended pending heard => exact Or.inl ⟨pending, heard⟩
  | dispatching onItsWay => exact Or.inr (Or.inl onItsWay)
  | deferred deferred dest held =>
      refine Or.inr (Or.inr ⟨deferred, dest, held.resolve_right ?_⟩)
      rintro ⟨f, hf, hcall⟩
      simp [hactive f hf] at hcall
  | repending _ f mem call => simp [hactive f mem] at call

omit [DecidableEq Ctx] in
theorem InWords.willCall (h : InWords s.cpu) : WillCall s := by
  rcases h with ⟨pending, heard⟩ | onItsWay | ⟨deferred, dest, held⟩
  · exact .pended pending heard
  · exact .dispatching onItsWay
  · exact .deferred deferred dest (Or.inl held)

theorem InWords.dispatch {m m' : Machine Ctx} (hw : InWords m.cpu) (hb : Bare b.arch m.cpu)
    (hd : Machine.Dispatches b core m m') : InWords m'.cpu := by
  unfold InWords at hw
  cases hd with
  | read arch place dest owed =>
      refine Or.inr (Or.inl ?_)
      simp [OnItsWay, place, owed, Owed.Heard, Machine.moveTo] at hw ⊢
      tauto
  | call | unflag | check | undefer => exact Or.inr (Or.inl trivial)
  | switch arch dest place =>
      simpa [InWords, OnItsWay, Machine.moveTo, Machine.switchStacks_cpu, place] using hw
  | clear arch place =>
      simp [InWords, OnItsWay, Machine.moveTo, Machine.setOwed, place, Owed.Heard] at hw ⊢
      tauto
  | look arch place =>
      have hdest := (hb.looking place).1
      cases hask : m.cpu.owed.reschedule with
      | true => exact Or.inr (Or.inl (by simp [OnItsWay, Machine.moveTo]))
      | false =>
          simp [InWords, OnItsWay, Machine.moveTo, place, Owed.Heard, hask, hdest] at hw ⊢
          tauto
  | serve arch place dest owed =>
      cases hask : m.cpu.owed.reschedule with
      | true => exact Or.inr (Or.inl (by simp [OnItsWay, Machine.moveTo]))
      | false =>
          simp [InWords, OnItsWay, Machine.moveTo, Machine.setOwed, Machine.switchStacks_cpu, place,
            Owed.Heard, hask, owed] at hw ⊢
          tauto
  | depth arch place =>
      by_cases hdepth : m.cpu.preempt = 0
      · exact Or.inr (Or.inl (by simp [OnItsWay, Machine.moveTo, hdepth]))
      · exact Or.inr (Or.inl (by simp [OnItsWay, Machine.moveTo, hdepth]))
  | defer arch place =>
      have hpreempt := hb.deferring place
      refine Or.inr (Or.inr ⟨rfl, ?_, hpreempt⟩)
      by_contra hdest
      exact hpreempt (hb.owing hdest).2.1

theorem WillCall.pendSvStep (hw : WillCall s) (hi : Inv b.arch s) (hact : act ≠ .callHandler)
    (h : s.pendSvStep b core act = some s') : WillCall s' := by
  unfold Requests.pendSvStep at h
  split at h
  · next hirqs =>
    split at h
    · next hidle =>
      split at h
      · cases h
        refine .dispatching ?_
        have hheard : s.cpu.owed.Heard := by
          cases hw with
          | pended _ heard => exact heard
          | dispatching onItsWay => simp [OnItsWay, hidle] at onItsWay
          | deferred _ dest => exact Or.inl dest
          | repending heard => exact heard
        exact Or.inl hheard
      · cases h
    · obtain ⟨m, hm, rfl⟩ := Option.map_eq_some_iff.mp h
      have hd := Machine.dispatch_cases hm
      have hactive : s.active = [] := by
        cases hp : s.cpu.pendsv <;> simp_all [active, hd.places.1]
      refine InWords.willCall ?_
      exact (hw.inWords (by simp [hactive])).dispatch (hi.bare hirqs hd.places.1.2) hd
    · exact absurd rfl hact
    · next source dest hhandling =>
      cases h
      have hcpu := Machine.switchStacks_cpu b core source dest s.toMachine
      refine hw.shift (by simp [hcpu]) (by simp [hcpu]) (by simp [hcpu]) (by simp [hcpu]) ?_ ?_
      · simp [OnItsWay, hhandling]
      · exact fun f hf _ => by simpa [active, hcpu, hhandling] using hf
    · next hhandling =>
      split at h
      · next hfresh =>
        cases h
        refine hw.shift rfl id rfl rfl ?_ ?_
        · simp [OnItsWay, hhandling]
        · simp [active, hirqs, hhandling, hfresh, Frame.fresh]
      · cases h
    · next hreturning =>
      cases h
      refine hw.shift rfl id rfl rfl ?_ ?_
      · simp [OnItsWay, hreturning]
      · simp [active, hirqs, hreturning]
    · cases h
  · cases h

/-- A request stays on its way at every step but the call of the handler. -/
theorem WillCall.next (hw : WillCall s) (hi : Inv b.arch s) (hok : s.OwesUnasked act)
    (hact : act ≠ .callHandler) (h : Requests.next b core s act = some s') : WillCall s' := by
  cases next_cases h with
  | irqEnter _ _ next =>
      subst next
      exact hw.shift rfl id rfl rfl id fun f hf _ => List.mem_cons_of_mem _ hf
  | irqReturn _ fs irqs next =>
      subst next
      refine hw.shift rfl id rfl rfl id fun f hf hcall => ?_
      simp only [active, irqs, List.cons_append, List.mem_cons] at hf
      rcases hf with rfl | hf
      · exact absurd rfl hcall
      · exact hf
  | owe source dest eq _ _ next =>
      subst eq next
      exact hw.oweSwitch hok
  | thread step => exact hw.threadStep hi hok step
  | pendSv step => exact hw.pendSvStep hi hact step
  | call f f' case moves => exact hw.call hi case moves

/-- A request is on its way once it is made. -/
theorem willCall_of_request (hi : Inv b.arch s) (hact : act.IsRequest)
    (h : Requests.next b core s act = some s') : WillCall s' := by
  cases next_cases h with
  | irqEnter eq | irqReturn eq | owe _ _ eq => simp [PortAct.IsRequest, eq] at hact
  | thread step =>
      rcases hact with rfl | rfl
      · simp [Requests.threadStep] at step
      · simp only [Requests.threadStep] at step
        split at step
        · next hruns =>
          split at step
          · cases step
            exact .pended rfl (Or.inl (hi.dest_of_threadRuns hruns.1))
          · cases step
        · cases step
  | pendSv step =>
      rcases hact with rfl | rfl <;> simp [Requests.pendSvStep] at step
  | call f f' case moves =>
      have he := case.effect
      have hpending : s'.cpu.pending = true ∧ f.call = .set := by
        generalize s'.cpu = p at case
        rcases hact with rfl | rfl <;> cases case
        exact ⟨rfl, by assumption⟩
      refine .pended hpending.1 (he.heard ?_)
      cases moves with
      | handler fs gs above => exact hi.asking f (by simp [above]) hpending.2
      | thread runs => exact Or.inl (hi.dest_of_threadRuns runs)

theorem WillCall.not_atBaseline (hw : WillCall s) : s.atBaseline arch = false := by
  by_contra hbase
  simp only [atBaseline, Bool.not_eq_false, Bool.and_eq_true, Bool.not_eq_true', beq_iff_eq] at hbase
  obtain ⟨⟨⟨hruns, hprimask⟩, hpreempt⟩, hcall⟩ := hbase
  obtain ⟨hirqs, hidle, htakes⟩ := threadRuns_iff.mp hruns
  have hactive : s.active = [s.thread s.cpu.psp] := by simp [active, hirqs, hidle]
  have hpending : s.cpu.pending = false := by
    simpa [Cpu.takesPendSv, hprimask, hpreempt] using htakes
  cases hw with
  | pended pending => simp [hpending] at pending
  | dispatching onItsWay => simp [OnItsWay, hidle] at onItsWay
  | deferred _ _ held =>
      rw [hactive] at held
      simp only [hpreempt, ne_eq, not_true_eq_false, false_or, List.mem_singleton, exists_eq_left] at held
      rcases held with h | h <;> simp [h] at hcall
  | repending _ f mem call =>
      rw [hactive, List.mem_singleton] at mem
      simp [← mem, call] at hcall

end WillCall

theorem inv_boot (arch : Arch) (contexts : Ctx → Context Ctx) (first : Ctx) :
    Inv arch (boot contexts first) := by
  refine Bare.inv ?_ rfl nofun
  exact ⟨fun h => absurd rfl h, fun h => absurd rfl h, nofun, nofun, fun _ => rfl⟩

/-- **A request reaches the handler.**  In every run in which a switch is first owed only with no request
outstanding, once `pend_reschedule` or `thread_yield` has asked, the kernel's handler is called before a
thread at baseline executes again. -/
theorem request_reaches_handler [DecidableEq Ctx] (b : Build) (core : ℕ) (contexts : Ctx → Context Ctx)
    (first : Ctx) {before after : List (PortAct Ctx)} {request : PortAct Ctx} {s : Requests Ctx}
    (hrequest : request.IsRequest)
    (hok : Meets (next b core) OwesUnasked (boot contexts first) (before ++ request :: after))
    (hrun : run (next b core) (boot contexts first) (before ++ request :: after) = some s)
    (hbase : s.atBaseline b.arch = true) : .callHandler ∈ after := by
  by_contra hcall
  obtain ⟨u, hbefore, hrest⟩ := run_append_eq_some hrun
  obtain ⟨v, hreq, hafter⟩ := run_cons_eq_some hrest
  obtain ⟨hok₁, hok₂⟩ := (meets_append hbefore).mp hok
  simp only [Meets, hreq] at hok₂
  have hu : Inv b.arch u := run_invariant_of_meets (fun s act t hi hok h => hi.next hok h)
    (inv_boot b.arch contexts first) hok₁ hbefore
  have hv : Inv b.arch v ∧ WillCall v := ⟨hu.next hok₂.1 hreq, willCall_of_request hu hrequest hreq⟩
  have hmeets := hok₂.2.and_mem (P := fun act => act ≠ .callHandler)
    fun act hact h => hcall (h ▸ hact)
  have hs := run_invariant_of_meets (I := fun s => Inv b.arch s ∧ WillCall s)
    (fun s act t hi hok h => ⟨hi.1.next hok.1 h, hi.2.next hi.1 hok.1 hok.2 h⟩) hv hmeets hafter
  simp [hs.2.not_atBaseline] at hbase

/-- Two threads, each with its own frame saved. -/
def twoContexts (t : Bool) : Context Bool := ⟨some t, 0, 0, 0⟩

/-- PendSV carries out an owed switch, calls the handler and returns. -/
def servesBoth : Arch → List (PortAct Bool)
  | .mainline => [.pendSvEnter, .dispatch, .dispatch, .dispatch, .dispatch, .dispatch, .callHandler,
      .handlerReturn, .pendSvReturn]
  | .armv6m => [.pendSvEnter, .dispatch, .dispatch, .dispatch, .callHandler, .handlerReturn,
      .pendSvReturn]

/-- An interrupt owes a switch and then pends. -/
def owedFirst (arch : Arch) : List (PortAct Bool) :=
  [.irqEnter, .oweSwitch false true, .pendLook, .pendFlag] ++ .pendSet :: (.irqReturn :: servesBoth arch)

/-- Both are served, on either layer. -/
theorem request_reaches_handler_owed_first :
    ((run (next ⟨.mainline, 1⟩ 0) (boot twoContexts false) (owedFirst .mainline)).map
        (atBaseline .mainline) = some true ∧ .callHandler ∈ .irqReturn :: servesBoth .mainline) ∧
      (run (next ⟨.armv6m, 1⟩ 0) (boot twoContexts false) (owedFirst .armv6m)).map
        (atBaseline .armv6m) = some true ∧ .callHandler ∈ .irqReturn :: servesBoth .armv6m := by
  have hboth : ∀ arch, (run (next ⟨arch, 1⟩ 0) (boot twoContexts false) (owedFirst arch)).map
      (atBaseline arch) = some true ∧ .callHandler ∈ .irqReturn :: servesBoth arch := by
    intro arch
    have hrun : (run (next ⟨arch, 1⟩ 0) (boot twoContexts false) (owedFirst arch)).map
        (atBaseline arch) = some true := by cases arch <;> rfl
    obtain ⟨s, hs, hbase⟩ := Option.map_eq_some_iff.mp hrun
    refine ⟨hrun, request_reaches_handler ⟨arch, 1⟩ 0 twoContexts false (Or.inl rfl) ?_ hs hbase⟩
    cases arch <;> decide
  exact ⟨hboth .mainline, hboth .armv6m⟩

/-- PendSV carries out an owed switch and returns. -/
def servesSwitch : Arch → List (PortAct Bool)
  | .mainline => [.pendSvEnter, .dispatch, .dispatch, .dispatch, .dispatch, .pendSvReturn]
  | .armv6m => [.pendSvEnter, .dispatch, .pendSvReturn]

/-- What follows the request of an interrupt that pends with nothing owed and then owes a switch, as a
second wake of the same interrupt does. -/
def owedAfter (arch : Arch) : List (PortAct Bool) :=
  [.oweSwitch false true, .irqReturn] ++ servesSwitch arch

/-- PendSV carries the switch out, finds no reschedule asked for, and returns: the request is gone and the
incoming thread runs at baseline, on either layer. -/
theorem request_lost_to_owed_switch :
    ((run (next ⟨.mainline, 1⟩ 0) (boot twoContexts false)
        ([.irqEnter, .pendLook] ++ .pendSet :: owedAfter .mainline)).map (atBaseline .mainline) =
          some true ∧ .callHandler ∉ owedAfter .mainline) ∧
      (run (next ⟨.armv6m, 1⟩ 0) (boot twoContexts false)
        ([.irqEnter, .pendLook] ++ .pendSet :: owedAfter .armv6m)).map (atBaseline .armv6m) =
          some true ∧ .callHandler ∉ owedAfter .armv6m :=
  ⟨⟨rfl, by decide⟩, rfl, by decide⟩

end Requests

end Cyros.Port.CortexM
