import Cyros.Port.Rv32

/-!
# The RV32 switch protocol

Along every run of a hart the trap path holds the registers of the kernel's current thread, but between an
interrupt's decision and the switch its exit makes, and between the pick of `reschedule` and its switch
(`Agrees`).

* `Agreement` is what follows for the saves, the reschedule handler and the frames resumed.
* `WillCall` says that a call of the handler is on its way.  Only the call itself ends it: the soft
  interrupt is lowered where the trap path has the call ahead.

`switch_protocol` states both of every run.
-/

namespace Cyros.Port.Rv32

open Cyros.Lib Cyros.Kernel

namespace Hart

variable {Tid : Type} [DecidableEq Tid] [Fintype Tid]

/-- **What a step can do.** -/
inductive Effect (guarded : Bool) (q : Hart Tid) : HartAct Tid → Hart Tid → Prop
  | kernel {act k} (hk : q.kernelStep act = some k) : Effect guarded q (.kernel act) { q with kernel := k }
  | wakeReady {fold t policy q'} (hexec : q.kernel.executing = some (.ready t policy)) (hwakes : q.wakes = true)
      (h : q.decided { q.kernel.moveTo .idle with
        sched := Core.setThreadReady q.kernel.sched fold t policy q.road } = some q') :
      Effect guarded q (.wakeReady fold) q'
  | yield {fold k q'} (htrap : q.trap = .none) (hk : q.kernel.next (.yield fold) = some k)
      (h : q.decided k = some q') : Effect guarded q (.yield fold) q'
  | commitToBlock {fold k q'} (htrap : q.trap = .none) (hk : q.kernel.next (.commitToBlock fold) = some k)
      (h : q.decided k = some q') : Effect guarded q (.commitToBlock fold) q'
  | threadYield (htrap : q.trap = .none) : Effect guarded q .threadYield { q with trap := .calling }
  | pendCalls (htrap : q.trap = .none) : Effect guarded q .pendReschedule { q with trap := .calling }
  | pendRaises : Effect guarded q .pendReschedule { q with raised := true }
  | remoteRaise : Effect guarded q .remoteRaise { q with raised := true }
  | setMie {enabled} : Effect guarded q (.setMie enabled) { q with mie := enabled }
  | setMsie {enabled} : Effect guarded q (.setMsie enabled) { q with msie := enabled }
  | irqEnter {k} (htrap : q.trap = .none) (hk : q.kernel.next .irqEnter = some k) :
      Effect guarded q .irqEnter
        { q with kernel := k, trap := .handler, trapDepth := q.trapDepth + 1, interruptCause := true }
  | irqReturn {visible k} (htrap : q.trap = .handler) (hk : q.kernel.next .irqReturn = some k) :
      Effect guarded q (.irqReturn visible)
        { q with kernel := k, trap := if visible && q.raised && q.msie then .lowering else .leaving false }
  | lower (htrap : q.trap = .lowering) :
      Effect guarded q .lower { q with raised := false, trap := .leaving true }
  | owes {asked} (htrap : q.trap = .leaving asked) (howed : q.owedTo ≠ none) :
      Effect guarded q .leave { q with trapDepth := q.trapDepth - 1, trap := .owed asked }
  | leaves {asked} (htrap : q.trap = .leaving asked) (howed : q.owedTo = none) :
      Effect guarded q .leave { q with trapDepth := q.trapDepth - 1, trap := if asked then .calling else .none }
  | owedSwitch {asked dest} (htrap : q.trap = .owed asked) (howed : q.owedTo = some dest) :
      Effect guarded q .owedSwitch
        { q.owedSwitch guarded dest with trap := if asked then .calling else .resuming }
  | softIrqEnter (htrap : q.trap = .none) :
      Effect guarded q .softIrqEnter { q with trap := .softIrq, interruptCause := true }
  | softIrqLower (htrap : q.trap = .softIrq) :
      Effect guarded q .softIrqLower { q with raised := false, trap := .calling }
  | callHandler {k} (htrap : q.trap = .calling) (hk : q.kernel.next .handlerEnter = some k) :
      Effect guarded q .callHandler
        { q with kernel := k, trapDepth := 1, inReschedule := true, frame := q.held, trap := .rescheduling }
  | retires {fold joiners prev k next} (htrap : q.trap = .rescheduling) (hguard : q.kernel.handler = .guard prev)
      (hk : q.kernel.next (.handlerGuard fold joiners) = some k) (hnext : k.sched.currentThread = some next)
      (hret : Core.retires q.kernel.sched prev = true) : Effect guarded q (.handlerGuard fold joiners)
        { q with
          kernel := k
          picked := some (none, next)
          contexts := Function.update q.contexts prev (Context.destroyed Tid) }
  | picks {fold joiners prev k next} (htrap : q.trap = .rescheduling) (hguard : q.kernel.handler = .guard prev)
      (hk : q.kernel.next (.handlerGuard fold joiners) = some k) (hnext : k.sched.currentThread = some next) :
      Effect guarded q (.handlerGuard fold joiners) { q with kernel := k, picked := some (some prev, next) }
  | handlerSwitch {capture next k} (htrap : q.trap = .rescheduling) (hpicked : q.picked = some (capture, next))
      (hk : q.kernel.next .handlerSwitch = some k) : Effect guarded q .handlerSwitch
        ({ q with kernel := k, picked := none }.portSwitch guarded capture next)
  | handlerReturn (htrap : q.trap = .rescheduling) (hidle : q.kernel.handler = .idle) :
      Effect guarded q .handlerReturn
        { q with inReschedule := false, trapDepth := 0, held := q.frame, trap := .resuming }
  | resume (htrap : q.trap = .resuming) : Effect guarded q .resume { q with trap := .none, mie := true }

theorem effect_of_next {guarded : Bool} {q q' : Hart Tid} {act : HartAct Tid} (h : q.next guarded act = some q') :
    q.Effect guarded act q' := by
  cases act <;> simp only [next, wakeReadyStep, threadDecides, guardStep, switchStep, trapStep, atBaseline] at h <;>
    grind [Effect, Option.map_eq_some_iff, Option.bind_eq_some_iff]

/-! ### The invariant -/

omit [DecidableEq Tid] [Fintype Tid] in
/-- Whose registers the trap path holds at each of its places, with `cur` the kernel's current thread. -/
def Agrees (q : Hart Tid) (cur : Tid) : Prop :=
  match q.trap with
  | .none | .softIrq | .calling | .resuming => q.owedTo = none ∧ q.held = some cur
  | .handler | .lowering | .leaving _ =>
      (q.owedTo = none ∧ q.held = some cur) ∨ (q.owedTo = some cur ∧ q.owedFrom = q.held)
  | .owed _ => q.owedTo = some cur ∧ q.owedFrom = q.held
  | .rescheduling => q.owedTo = none ∧ (q.kernel.handler ≠ .switching → q.frame = some cur) ∧
      -- `reschedule` has picked `cur` and not switched
      (q.kernel.handler = .switching → ∃ capture, q.picked = some (capture, cur) ∧
        ∀ prev, capture = some prev → q.frame = some prev)

omit [DecidableEq Tid] [Fintype Tid] in
/-- Every context of a live thread holds a frame of that thread. -/
def Saved (contexts : Tid → Context Tid) (live : Tid → Prop) : Prop :=
  ∀ t, live t → (contexts t).frame = some t

structure Inv (q : Hart Tid) : Prop where
  kernel : q.kernel.Inv False
  handler : q.kernel.handler ≠ .idle → q.trap = .rescheduling
  agrees : ∀ cur, q.kernel.sched.currentThread = some cur → q.Agrees cur
  saved : Saved q.contexts fun t => q.kernel.sched.state t ≠ .terminated

variable {q : Hart Tid}

omit [Fintype Tid] in
/-- A thread's registers saved into its own context. -/
theorem Saved.save {contexts : Tid → Context Tid} {live : Tid → Prop} {source frame : Option Tid}
    (h : Saved contexts live) (hsource : ∀ s, source = some s → frame = some s) :
    Saved (save contexts source frame) live := by
  intro t ht
  cases source with
  | none => exact h t ht
  | some s =>
      by_cases hs : t = s
      · subst hs
        simpa [Hart.save] using hsource t rfl
      · simpa [Hart.save, hs] using h t ht

omit [DecidableEq Tid] [Fintype Tid] in
theorem Inv.current (hi : Inv q) :
    ∃ cur, q.kernel.sched.currentThread = some cur ∧ q.kernel.sched.state cur ≠ .terminated ∧
      q.Agrees cur := by
  obtain ⟨cur, hcur⟩ := hi.kernel.phase
  refine ⟨cur, hcur.currentThread, ?_, hi.agrees cur hcur.currentThread⟩
  rcases hcur.live with h | h <;> simp [h]

omit [DecidableEq Tid] [Fintype Tid] in
/-- Outside the reschedule's dispatch the kernel's handler does not run. -/
theorem Inv.handler_idle (hi : Inv q) (h : q.trap ≠ .rescheduling) : q.kernel.handler = .idle := by
  by_contra hne
  exact h (hi.handler hne)

omit [DecidableEq Tid] [Fintype Tid] in
/-- The kernel moves without changing its current thread. -/
theorem Inv.quiet {k : Core Tid} (hi : Inv q) (hk : k.Inv False)
    (hs : Core.SameThreads q.kernel.sched k.sched) (hh : Core.HandlerMoves q.kernel.handler k.handler) :
    Inv { q with kernel := k } := by
  refine ⟨hk, fun hne => hi.handler fun hidle => ?_, fun cur hcur => ?_, fun t ht => hi.saved t ?_⟩
  · rcases hh with h | h
    · exact hne (h.trans hidle)
    · exact h.1.1 hidle
  · have hag := hi.agrees cur (hs.currentThread ▸ hcur)
    have hiff : k.handler = .switching ↔ q.kernel.handler = .switching := by
      rcases hh with h | h
      · rw [h]
      · simp [h.1.2, h.2.2]
    unfold Agrees at hag ⊢
    simpa only [ne_eq, hiff] using hag
  · exact fun h => ht ((hs.terminated t).mpr h)

omit [DecidableEq Tid] [Fintype Tid] in
/-- The trap path moves to a place where it holds the current thread's registers. -/
theorem Inv.moves {q' : Hart Tid} (hi : Inv q) (hk : q'.kernel = q.kernel)
    (hhandler : q.kernel.handler = .idle ∨ q'.trap = .rescheduling)
    (hag : ∀ cur, q.kernel.sched.currentThread = some cur → q'.Agrees cur)
    (hsaved : Saved q'.contexts fun t => q.kernel.sched.state t ≠ .terminated) : Inv q' := by
  refine ⟨hk ▸ hi.kernel, fun hne => ?_, hk ▸ hag, hk ▸ hsaved⟩
  rcases hhandler with h | h
  · exact absurd (hk ▸ h) hne
  · exact h

omit [Fintype Tid] in
/-- A decision, and the switch made or owed for it. -/
theorem Inv.decided {k : Core Tid} {q' : Hart Tid} (hi : Inv q) (hk : k.Inv False)
    (hterm : ∀ t, k.sched.state t = .terminated ↔ q.kernel.sched.state t = .terminated)
    (hh : k.handler = q.kernel.handler) (hwakes : q.wakes = true) (h : q.decided k = some q') :
    Inv q' := by
  simp only [Hart.wakes, Bool.or_eq_true, beq_iff_eq] at hwakes
  have hidle : k.handler = .idle := by
    rw [hh]
    refine hi.handler_idle fun htrap => ?_
    rcases hwakes with hw | hw <;> simp [htrap] at hw
  have hlive : ∀ t, k.sched.state t ≠ .terminated → q.kernel.sched.state t ≠ .terminated :=
    fun t ht hs => ht ((hterm t).mpr hs)
  unfold Hart.decided at h
  split at h
  · next prev next hprev hnext =>
    have hag := hi.agrees prev hprev
    split at h
    · next heq =>
      cases h
      refine hi.quiet hk ⟨?_, hterm⟩ (Or.inl hh)
      rw [hprev, hnext, heq]
    · split at h
      · next htrap =>
        cases h
        simp only [Agrees, htrap] at hag
        obtain ⟨c, hc⟩ := hk.phase
        obtain rfl : c = next := Option.some.inj (hc.currentThread.symm.trans hnext)
        have hsaved : Saved (save q.contexts (some prev) q.held) fun t => k.sched.state t ≠ .terminated := by
          have hs := hi.saved.save fun s (hs : some prev = some s) => hs ▸ hag.2
          exact fun t ht => hs t (hlive t ht)
        refine ⟨hk, fun hne => absurd hidle hne, fun cur hcur => ?_, hsaved⟩
        obtain rfl : c = cur := Option.some.inj (hnext.symm.trans hcur)
        have hcur' : k.sched.state c ≠ .terminated := by rcases hc.live with hl | hl <;> simp [hl]
        simp only [Agrees, directSwitch, htrap]
        exact ⟨hag.1, hsaved c hcur'⟩
      · next htrap =>
        cases h
        have hhandler : q.trap = .handler := hwakes.resolve_left htrap
        simp only [Agrees, hhandler] at hag
        refine ⟨hk, fun hne => absurd hidle hne, fun cur hcur => ?_, fun t ht => hi.saved t (hlive t ht)⟩
        obtain rfl : next = cur := Option.some.inj (hnext.symm.trans hcur)
        simp only [Agrees, oweSwitch, hhandler]
        -- the first decision records the thread whose registers the trap holds, a later one keeps it
        refine Or.inr ⟨trivial, ?_⟩
        rcases hag with ⟨hnone, hheld⟩ | ⟨hsome, hfrom⟩
        · simp [hnone, hheld]
        · simp [hsome, hfrom]
  · cases h

omit [DecidableEq Tid] [Fintype Tid] in
/-- The masks and the soft interrupt move, and no frame. -/
theorem Inv.keeps {q' : Hart Tid} (hi : Inv q) (hkernel : q'.kernel = q.kernel)
    (hpicked : q'.picked = q.picked) (hcontexts : q'.contexts = q.contexts) (hheld : q'.held = q.held)
    (hframe : q'.frame = q.frame) (hfrom : q'.owedFrom = q.owedFrom) (hto : q'.owedTo = q.owedTo)
    (htrap : q'.trap = q.trap) : Inv q' := by
  obtain ⟨hk, hh, hag, hsaved⟩ := hi
  refine ⟨hkernel ▸ hk, by rwa [hkernel, htrap], fun cur hcur => ?_, by rwa [hkernel, hcontexts]⟩
  have h := hag cur (hkernel ▸ hcur)
  unfold Agrees at h ⊢
  rwa [htrap, hto, hheld, hfrom, hkernel, hpicked, hframe]

theorem Inv.kernelStep {act : CoreAct Tid} {k : Core Tid} (hi : Inv q) (h : q.kernelStep act = some k) :
    Inv { q with kernel := k } := by
  have hnext : Core.isQuiet act = true ∧ q.kernel.next act = some k := by
    cases act <;> simp [Hart.kernelStep, Core.isQuiet] at h ⊢ <;> tauto
  obtain ⟨hs, hh, -⟩ := Core.next_quiet hi.kernel hnext.1 hnext.2
  exact hi.quiet (hi.kernel.next False.elim hnext.2) hs hh

/-- A wake's last step is one of the kernel: the road the port says is open. -/
theorem Inv.next_road {t : Tid} {policy : Policy} (hi : Inv q) (fold : Tid → ℕ)
    (hwakes : q.wakes = true) (hexec : q.kernel.executing = some (.ready t policy)) :
    q.kernel.next (.wakeReady fold q.road) = some { q.kernel.moveTo .idle with
      sched := Core.setThreadReady q.kernel.sched fold t policy q.road } := by
  have hopen : q.kernel.roadOpen q.road = true := by
    have hidle : q.kernel.handler = .idle := by
      refine hi.handler_idle fun htrap => ?_
      simp [Hart.wakes, htrap] at hwakes
    unfold Hart.road
    by_cases hirqs : q.kernel.irqs.isEmpty = true
    · rw [if_pos hirqs]
      split <;> simp [Core.roadOpen, List.isEmpty_iff.mp hirqs]
    · rw [if_neg hirqs]
      split
      · simpa [Core.roadOpen, hidle] using hirqs
      · rfl
  simp [Core.next, Core.wakeStep, hexec, hopen]

/-- The running thread decides. -/
theorem Inv.threadDecides {act : CoreAct Tid} {k : Core Tid} {q' : Hart Tid} (hi : Inv q)
    (hact : (∃ fold, act = .yield fold) ∨ ∃ fold, act = .commitToBlock fold) (htrap : q.trap = .none)
    (hk : q.kernel.next act = some k) (h : q.decided k = some q') : Inv q' := by
  obtain ⟨hterm, hh, -⟩ := Core.next_threadDecides hi.kernel hact hk
  exact hi.decided (hi.kernel.next False.elim hk) hterm hh (by simp [Hart.wakes, htrap]) h

/-- `cyros_port_switch` is called with the thread `reschedule` picked, which is current, and, unless that
was retired, the thread whose frame the trap holds. -/
theorem Inv.switches {capture : Option Tid} {next : Tid} {k : Core Tid} (hi : Inv q)
    (htrap : q.trap = .rescheduling) (hpicked : q.picked = some (capture, next))
    (hk : q.kernel.next .handlerSwitch = some k) :
    k = { q.kernel with handler := .idle } ∧ q.kernel.sched.currentThread = some next ∧
      q.kernel.sched.state next ≠ .terminated ∧ q.owedTo = none ∧ ∀ s, capture = some s → q.frame = some s := by
  obtain ⟨hswitching, rfl⟩ := Core.next_handlerSwitch hk
  obtain ⟨cur, hcur, hlive, hag⟩ := hi.current
  simp only [Agrees, htrap] at hag
  obtain ⟨capture', hpicked', hframe⟩ := hag.2.2 hswitching
  obtain ⟨rfl, rfl⟩ : capture = capture' ∧ next = cur := by simpa [hpicked] using hpicked'
  exact ⟨rfl, hcur, hlive, hag.1, hframe⟩

omit [Fintype Tid] [DecidableEq Tid] in
theorem trap_of_atBaseline (h : q.atBaseline = true) : q.trap = .none := by
  simp only [atBaseline, Bool.and_eq_true, beq_iff_eq] at h
  exact h.1.1

/-- **One step keeps the kernel and the port in agreement.** -/
theorem Inv.next {guarded : Bool} {act : HartAct Tid} {q' : Hart Tid} (hi : Inv q)
    (h : q.next guarded act = some q') : Inv q' := by
  obtain ⟨cur, hcur, hlive, hag⟩ := hi.current
  -- the trap path moves, outside the kernel's handler
  have hmoves : ∀ q' : Hart Tid, q'.kernel = q.kernel → q.trap ≠ .rescheduling → q'.Agrees cur →
      Saved q'.contexts (fun t => q.kernel.sched.state t ≠ .terminated) → Inv q' := by
    intro q' hk htrap hag' hsaved
    refine hi.moves hk (Or.inl (hi.handler_idle htrap)) (fun cur' hcur' => ?_) hsaved
    obtain rfl : cur = cur' := Option.some.inj (hcur.symm.trans hcur')
    exact hag'
  cases effect_of_next h with
  | kernel hk => exact hi.kernelStep hk
  | @wakeReady fold t policy q' hexec hwakes h =>
      have hnext := hi.next_road fold hwakes hexec
      obtain ⟨hterm, hh, -, -⟩ := Core.next_wakeReady hi.kernel hnext
      exact hi.decided (hi.kernel.next False.elim hnext) hterm hh hwakes h
  | yield htrap hk h => exact hi.threadDecides (Or.inl ⟨_, rfl⟩) htrap hk h
  | commitToBlock htrap hk h => exact hi.threadDecides (Or.inr ⟨_, rfl⟩) htrap hk h
  | threadYield htrap | pendCalls htrap | lower htrap | softIrqEnter htrap | softIrqLower htrap | resume htrap =>
      simp only [Agrees, htrap] at hag
      exact hmoves _ rfl (by simp [htrap]) hag hi.saved
  | pendRaises | remoteRaise | setMie | setMsie => exact hi.keeps rfl rfl rfl rfl rfl rfl rfl rfl
  | irqEnter htrap hk =>
      cases hk
      simp only [Agrees, htrap] at hag
      refine ⟨⟨hi.kernel.phase, hi.kernel.idle⟩, fun hne => ?_, fun cur' hcur' => ?_, hi.saved⟩
      · exact absurd (hi.handler_idle (by simp [htrap])) hne
      · obtain rfl : cur = cur' := Option.some.inj (hcur.symm.trans hcur')
        exact Or.inl hag
  | @irqReturn visible k htrap hk =>
      have hkernel := hi.kernel.next False.elim hk
      simp only [Core.next] at hk
      split at hk
      · cases hk
        simp only [Agrees, htrap] at hag
        refine ⟨hkernel, fun hne => ?_, fun cur' hcur' => ?_, hi.saved⟩
        · exact absurd (hi.handler_idle (by simp [htrap])) hne
        · obtain rfl : cur = cur' := Option.some.inj (hcur.symm.trans hcur')
          unfold Agrees
          cases visible && q.raised && q.msie <;> exact hag
      · cases hk
  | owes htrap howed =>
      simp only [Agrees, htrap] at hag
      refine hmoves _ rfl (by simp [htrap]) ?_ hi.saved
      exact hag.resolve_left fun hnone => howed hnone.1
  | @leaves asked htrap hnone =>
      simp only [Agrees, htrap] at hag
      have hheld : q.owedTo = none ∧ q.held = some cur := by
        refine hag.resolve_right fun hsome => ?_
        cases hnone.symm.trans hsome.1
      refine hmoves _ rfl (by simp [htrap]) ?_ hi.saved
      cases asked <;> exact hheld
  | @owedSwitch asked dest htrap howed =>
      simp only [Agrees, htrap, howed, Option.some.injEq] at hag
      obtain ⟨rfl, hfrom⟩ := hag
      have hsaved := hi.saved.save fun s hs => hfrom.symm.trans hs
      refine hmoves _ rfl (by simp [htrap]) ?_ hsaved
      cases asked <;> exact ⟨rfl, hsaved dest hlive⟩
  | callHandler htrap hk =>
      have hkernel := hi.kernel.next False.elim hk
      obtain rfl := Core.next_handlerEnter hk
      simp only [Agrees, htrap] at hag
      refine ⟨hkernel, fun _ => rfl, fun cur' hcur' => ?_, hi.saved⟩
      obtain rfl : cur = cur' := Option.some.inj (hcur.symm.trans hcur')
      exact ⟨hag.1, fun _ => hag.2, by simp⟩
  | @retires fold joiners prev k next htrap hguard hk hnext hret =>
      obtain ⟨hprev, hh, -, hterm⟩ := Core.next_guard hi.kernel hguard hk
      simp only [Agrees, htrap] at hag
      refine ⟨hi.kernel.next False.elim hk, fun _ => htrap, fun cur' hcur' => ?_, fun t ht => ?_⟩
      · obtain rfl : next = cur' := Option.some.inj (hnext.symm.trans hcur')
        simp only [Agrees, htrap, hh]
        exact ⟨hag.1, fun hne => absurd rfl hne, fun _ => ⟨none, rfl, by rintro _ ⟨⟩⟩⟩
      · have hlive := mt (hterm t).mpr ht
        rw [not_or] at hlive
        have hne : t ≠ prev := fun heq => hlive.2 ⟨heq, hret⟩
        simpa [Function.update_of_ne hne] using hi.saved t hlive.1
  | @picks fold joiners prev k next htrap hguard hk hnext =>
      obtain ⟨hprev, hh, -, hterm⟩ := Core.next_guard hi.kernel hguard hk
      have hag := hi.agrees prev hprev
      simp only [Agrees, htrap, hguard] at hag
      refine ⟨hi.kernel.next False.elim hk, fun _ => htrap, fun cur' hcur' => ?_, fun t ht => ?_⟩
      · obtain rfl : next = cur' := Option.some.inj (hnext.symm.trans hcur')
        simp only [Agrees, htrap, hh]
        refine ⟨hag.1, fun hne => absurd rfl hne, fun _ => ⟨some prev, rfl, fun prev' heq => ?_⟩⟩
        exact heq ▸ hag.2.1 (by rintro ⟨⟩)
      · exact hi.saved t fun hs => ht ((hterm t).mpr (Or.inl hs))
  | @handlerSwitch capture next k htrap hpicked hk =>
      have hkernel := hi.kernel.next False.elim hk
      obtain ⟨rfl, hnext, hlive, howed, hsource⟩ := hi.switches htrap hpicked hk
      have hsaved := hi.saved.save hsource
      refine ⟨hkernel, fun hne => absurd rfl hne, fun cur' hcur' => ?_, hsaved⟩
      obtain rfl : next = cur' := Option.some.inj (hnext.symm.trans hcur')
      simp only [Agrees, portSwitch, htrap]
      exact ⟨howed, fun _ => hsaved next hlive, by rintro ⟨⟩⟩
  | handlerReturn htrap hidle =>
      simp only [Agrees, htrap] at hag
      refine hi.moves rfl (Or.inl hidle) (fun cur' hcur' => ?_) hi.saved
      obtain rfl : cur = cur' := Option.some.inj (hcur.symm.trans hcur')
      exact ⟨hag.1, hag.2.1 (by simp [hidle])⟩

theorem inv_boot (idle : Tid) (basePriority : Tid → Level) (threads : List Tid) (guards : Tid → ℕ) :
    Inv (boot idle basePriority threads guards) := by
  have hkernel : Core.Inv False (Core.boot idle basePriority threads) :=
    Core.inv_boot idle basePriority threads
  exact ⟨hkernel, fun h => absurd rfl h, fun cur hcur => ⟨rfl, hcur⟩, fun _ _ => rfl⟩

/-! ### The protocol -/

/-- **What the kernel and the port agree on.** -/
structure Agreement (guarded : Bool) (q : Hart Tid) : Prop where
  /-- A frame is saved into the context of the thread whose registers it holds. -/
  saves : ∀ act q' source frame, q.next guarded act = some q' → q.saves act = some (source, frame) →
    frame = some source
  /-- The reschedule handler, from its call to its pick, finds the current thread's frame in the trap. -/
  handler : q.kernel.handler ≠ .idle → q.kernel.handler ≠ .switching →
    q.frame = q.kernel.sched.currentThread
  /-- The frame resumed, and the thread that runs, is the current one. -/
  resumed : q.trap = .resuming ∨ q.trap = .none → q.held = q.kernel.sched.currentThread

theorem Inv.agreement {guarded : Bool} (hi : Inv q) : q.Agreement guarded := by
  obtain ⟨cur, hcur, -, hag⟩ := hi.current
  refine ⟨fun act q' source frame h hs => ?_, fun hbusy hswitching => ?_, fun htrap => ?_⟩
  · cases effect_of_next h with
    | yield | commitToBlock | wakeReady =>
        simp only [Hart.saves, hcur, Option.map_some, Option.ite_none_right_eq_some, Option.some.injEq,
          Prod.mk.injEq] at hs
        obtain ⟨htrap, rfl, rfl⟩ := hs
        simp only [Agrees, htrap] at hag
        exact hag.2
    | owedSwitch htrap howed =>
        simp only [Agrees, htrap] at hag
        obtain ⟨s, hfrom, heq⟩ := Option.map_eq_some_iff.mp hs
        cases heq
        rw [← hag.2, hfrom]
    | handlerSwitch htrap hpicked hk =>
        obtain ⟨-, -, -, -, hframe⟩ := hi.switches htrap hpicked hk
        simp only [Hart.saves, hpicked, Option.bind_some] at hs
        obtain ⟨s, hcapture, heq⟩ := Option.map_eq_some_iff.mp hs
        cases heq
        exact hframe _ hcapture
    | _ => cases hs
  · simp only [Agrees, hi.handler hbusy] at hag
    rw [hcur, hag.2.1 hswitching]
  · rcases htrap with htrap | htrap <;>
    · simp only [Agrees, htrap] at hag
      rw [hcur, hag.2]

omit [DecidableEq Tid] [Fintype Tid] in
/-- The handler's call is on its way: the soft interrupt is raised, or the trap path has it ahead. -/
def WillCall (q : Hart Tid) : Prop :=
  q.raised = true ∨ match q.trap with
    | .lowering | .softIrq | .calling | .leaving true | .owed true => True
    | _ => False

omit [DecidableEq Tid] [Fintype Tid] in
theorem WillCall.congr {q' : Hart Tid} (h : q.WillCall) (hraised : q'.raised = q.raised)
    (htrap : q'.trap = q.trap) : q'.WillCall := by
  unfold WillCall at h ⊢
  rwa [hraised, htrap]

omit [Fintype Tid] in
/-- A decision leaves the soft interrupt and the trap path where they are. -/
theorem decided_trap {k : Core Tid} {q' : Hart Tid} (h : q.decided k = some q') :
    q'.raised = q.raised ∧ q'.trap = q.trap := by
  unfold Hart.decided at h
  split at h
  · split at h
    · cases h
      exact ⟨rfl, rfl⟩
    · split at h <;> cases h <;> exact ⟨rfl, rfl⟩
  · cases h

/-- A request puts it on its way. -/
theorem willCall_of_request {guarded : Bool} {act : HartAct Tid} {q' : Hart Tid} (hact : act.IsRequest)
    (h : q.next guarded act = some q') : q'.WillCall := by
  cases effect_of_next h with
  | threadYield | pendCalls => exact Or.inr trivial
  | pendRaises | remoteRaise => exact Or.inl rfl
  | _ => exact hact.elim

/-- A step other than the call keeps it on its way. -/
theorem WillCall.next {guarded : Bool} {act : HartAct Tid} {q' : Hart Tid} (hw : q.WillCall)
    (hact : act ≠ .callHandler) (h : q.next guarded act = some q') : q'.WillCall := by
  cases effect_of_next h with
  | callHandler => exact absurd rfl hact
  | wakeReady _ _ h | yield _ _ h | commitToBlock _ _ h =>
      obtain ⟨hraised, htrap⟩ := decided_trap h
      exact hw.congr hraised htrap
  | threadYield | pendCalls | pendRaises | remoteRaise => exact willCall_of_request (by trivial) h
  | kernel | setMie | setMsie | retires | picks | handlerSwitch => exact hw.congr rfl rfl
  | irqEnter htrap | irqReturn htrap | handlerReturn htrap | resume htrap =>
      exact Or.inl (by simpa [WillCall, htrap] using hw)
  | lower | softIrqEnter | softIrqLower => exact Or.inr trivial
  | @owes asked htrap | @leaves asked htrap | @owedSwitch asked _ htrap =>
      cases asked with
      | true => exact Or.inr trivial
      | false =>
          have hraised : q.raised = true := by simpa [WillCall, htrap] using hw
          exact Or.inl hraised

/-- **The RV32 switch protocol.**  In every state of every run the kernel and the port agree, and, when a
thread at baseline executes there, every request made so far has been followed by a call of the handler,
or the soft interrupt is still raised. -/
theorem switch_protocol (guarded : Bool) (idle : Tid) (basePriority : Tid → Level) (threads : List Tid)
    (guards : Tid → ℕ) {acts : List (HartAct Tid)} {q : Hart Tid}
    (hrun : run (next guarded) (boot idle basePriority threads guards) acts = some q) :
    q.Agreement guarded ∧ ∀ before request after, acts = before ++ request :: after →
      request.IsRequest → q.atBaseline = true → .callHandler ∈ after ∨ q.raised = true := by
  constructor
  · exact Inv.agreement (run_invariant (I := Inv) (fun _ _ _ hi h => hi.next h)
      (inv_boot idle basePriority threads guards) hrun)
  · rintro before request after rfl hrequest hbase
    obtain ⟨u, -, hrest⟩ := run_append_eq_some hrun
    obtain ⟨v, hreq, hafter⟩ := run_cons_eq_some hrest
    by_cases hcall : .callHandler ∈ after
    · exact Or.inl hcall
    · have hmeets := (Meets.of_true (next guarded) v after).and_mem
        (P := fun act => act ≠ .callHandler) fun act hact heq => hcall (heq ▸ hact)
      have hq := run_invariant_of_meets (I := WillCall) (fun _ _ _ hw hok h => hw.next hok.2 h)
        (willCall_of_request hrequest hreq) hmeets hafter
      refine Or.inr ?_
      simpa [WillCall, trap_of_atBaseline hbase] using hq

/-- Thread 2 parks, and an interrupt wakes it.  Another core raises the soft interrupt meanwhile. -/
def wokenAndRaised : List (HartAct (Fin 3)) :=
  [.kernel .prepare, .commitToBlock fun _ => 0, .irqEnter, .kernel (.wake 2 .automatic),
    .kernel .wakeClear, .kernel .wakeLook, .wakeReady fun _ => 0]

/-- The trap's exit takes the reschedule along, makes the owed switch and runs the reschedule. -/
def exitServesBoth : List (HartAct (Fin 3)) :=
  [.irqReturn true, .lower, .leave, .owedSwitch, .callHandler, .kernel .handlerTake, .kernel .handlerPrev,
    .handlerGuard (fun _ => 0) [], .handlerSwitch, .handlerReturn, .resume]

/-- Both are served, and thread 2 runs at baseline. -/
theorem switch_protocol_woken :
    ∃ q, run (next true) (boot 0 Core.twoThreads [1, 2] fun t => 128 * t + 15)
        (wokenAndRaised ++ .remoteRaise :: exitServesBoth) = some q ∧
      q.atBaseline = true ∧ q.held = some 2 ∧ q.raised = false ∧ q.Agreement true ∧
      .callHandler ∈ exitServesBoth := by
  have hrun : (run (next true) (boot 0 Core.twoThreads [1, 2] fun t => 128 * t + 15)
      (wokenAndRaised ++ .remoteRaise :: exitServesBoth)).map
        (fun q => (q.atBaseline, q.held, q.raised)) = some (true, some 2, false) := rfl
  obtain ⟨q, hq, hstate⟩ := Option.map_eq_some_iff.mp hrun
  simp only [Prod.mk.injEq] at hstate
  have hprotocol := switch_protocol true 0 Core.twoThreads [1, 2] _ hq
  refine ⟨q, hq, hstate.1, hstate.2.1, hstate.2.2, hprotocol.1, ?_⟩
  have hserved := hprotocol.2 wokenAndRaised .remoteRaise exitServesBoth rfl trivial hstate.1
  simpa [hstate.2.2] using hserved

end Hart

end Cyros.Port.Rv32
