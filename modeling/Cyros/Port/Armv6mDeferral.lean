import Mathlib.Data.List.Basic
import Mathlib.Logic.Function.Basic
import Mathlib.Algebra.Ring.Nat
import Cyros.Lib.Run

/-!
# Deferred reschedules on ARMv6-M

ARMv6-M has no BASEPRI, so disabling preemption masks nothing.  A depth is counted, PendSV finds it above zero
and notes in a flag that it has deferred, and the outermost enable pends PendSV again.  The depth, the flag
and PendSV's pending bit are three words, and the thread, the interrupts above it and PendSV change them one
access at a time.

One core, its threads, the stack of its interrupts and PendSV below them, in the runs in which no switch is
owed.  Interrupts call `preempt_disable` and `preempt_enable` in balance.  The kernel's handler runs in PendSV,
may itself disable and enable, and then goes on with any thread.  A PendSV that is pending is taken before the
thread's next instruction as soon as PRIMASK allows it; `asked` says that a reschedule was requested and that
the handler has not been called since.
-/

namespace Cyros.Port.Armv6mDeferral

open Cyros.Lib

/-- `preempt_depth`, `reschedule_deferred` and PendSV's pending bit. -/
structure Words where
  depth : ℕ
  deferred : Bool
  pending : Bool
  deriving DecidableEq, Repr

/-- The next access of a `preempt_disable` or a `preempt_enable`. -/
inductive Place
  | idle
  /-- `preempt_disable` has read the depth. -/
  | raise (token : ℕ)
  | lower (token : ℕ)
  /-- The outermost `preempt_enable` has stored zero. -/
  | look
  /-- It has found the flag. -/
  | clear
  | pend
  deriving DecidableEq, Repr

/-- A thread, an interrupt or the kernel in PendSV, with the tokens of its open regions, the innermost
first. -/
structure Ctx where
  place : Place
  tokens : List ℕ
  deriving DecidableEq, Repr

def Ctx.fresh : Ctx := ⟨.idle, []⟩

inductive Op
  | disable
  | enable
  | request
  | go
  deriving DecidableEq, Repr

/-- **A step of a context.**  A call begins, a reschedule is pended, or the call under way makes its next
access. -/
def Ctx.step (w : Words) (c : Ctx) : Op → Option (Words × Ctx)
  | .disable => if c.place = .idle then some (w, { c with place := .raise w.depth }) else none
  | .enable =>
      match c.place, c.tokens with
      | .idle, token :: _ => some (w, { c with place := .lower token })
      | _, _ => none
  | .request => if c.place = .idle then some ({ w with pending := true }, c) else none
  | .go =>
      match c.place with
      | .idle => none
      | .raise token => some ({ w with depth := token + 1 }, ⟨.idle, token :: c.tokens⟩)
      | .lower token =>
          some ({ w with depth := token }, ⟨if token = 0 then .look else .idle, c.tokens.tail⟩)
      | .look => some (w, { c with place := if w.deferred then .clear else .idle })
      | .clear => some ({ w with deferred := false }, { c with place := .pend })
      | .pend => some ({ w with pending := true }, { c with place := .idle })

/-- The next step of `cyros_port_pendsv_dispatch`; in `kernel` the handler has been called. -/
inductive PendPlace
  | mask
  | look
  | depth
  | defer
  | clear
  | call
  | kernel (ctx : Ctx)
  deriving DecidableEq, Repr

structure Core (T : Type*) where
  words : Words
  primask : Bool
  /-- The active interrupts, the innermost first. -/
  frames : List Ctx
  pendsv : Option PendPlace
  current : T
  thread : T → Ctx
  asked : Bool

inductive Act (T : Type*)
  | run (op : Op)
  | mask (masked : Bool)
  | enter
  | leave
  | take
  | dispatch
  | finish (t : T)
  deriving DecidableEq, Repr

namespace Core

variable {T : Type*} [DecidableEq T]

/-- The thread runs: nothing is above it, and no PendSV is due. -/
def threadRuns (C : Core T) : Prop :=
  C.frames = [] ∧ C.pendsv = none ∧ ¬ (C.words.pending = true ∧ C.primask = false)

instance (C : Core T) : Decidable C.threadRuns := inferInstanceAs (Decidable (_ ∧ _ ∧ ¬ (_ ∧ _)))

/-- The kernel's context in PendSV. -/
def kernelCtx : Option PendPlace → List Ctx
  | some (.kernel c) => [c]
  | _ => []

def askedBy (C : Core T) (op : Op) : Bool := C.asked || op == .request

/-- A step of whoever runs. -/
def runStep (C : Core T) (op : Op) : Option (Core T) :=
  match C.frames, C.pendsv with
  | c :: rest, _ =>
      (c.step C.words op).map fun p => { C with words := p.1, frames := p.2 :: rest, asked := C.askedBy op }
  | [], some (.kernel c) =>
      (c.step C.words op).map fun p =>
        { C with words := p.1, pendsv := some (.kernel p.2), asked := C.askedBy op }
  | [], some _ => none
  | [], none =>
      if C.threadRuns then
        ((C.thread C.current).step C.words op).map fun p =>
          { C with
            words := p.1
            thread := Function.update C.thread C.current p.2
            asked := C.askedBy op }
      else none

/-- A step of `cyros_port_pendsv_dispatch`, with no switch owed. -/
def dispatchStep (C : Core T) : Option (Core T) :=
  match C.pendsv with
  | some .mask => some { C with primask := true, pendsv := some .look }
  | some .look => some { C with primask := false, pendsv := some .depth }
  | some .depth => some { C with pendsv := some (if C.words.depth = 0 then .clear else .defer) }
  | some .defer => some { C with words := { C.words with deferred := true }, pendsv := none }
  | some .clear => some { C with words := { C.words with deferred := false }, pendsv := some .call }
  | some .call => some { C with pendsv := some (.kernel .fresh), asked := false }
  | some (.kernel _) => none
  | none => none

/-- **One step.** -/
def next (C : Core T) : Act T → Option (Core T)
  | .run op => C.runStep op
  | .mask masked =>
      if C.frames ≠ [] ∨ kernelCtx C.pendsv ≠ [] ∨ C.threadRuns then some { C with primask := masked }
      else none
  | .enter => if C.primask = false then some { C with frames := .fresh :: C.frames } else none
  | .leave =>
      match C.frames with
      | c :: rest => if c = .fresh then some { C with frames := rest } else none
      | [] => none
  | .take =>
      if C.primask = false ∧ C.frames = [] ∧ C.pendsv = none ∧ C.words.pending = true then
        some { C with words := { C.words with pending := false }, pendsv := some .mask }
      else none
  | .dispatch => if C.frames = [] then C.dispatchStep else none
  | .finish t =>
      if C.frames = [] ∧ C.pendsv = some (.kernel .fresh) then
        some { C with pendsv := none, current := t }
      else none

/-- The first thread is started at baseline. -/
def boot (t : T) : Core T where
  words := ⟨0, false, false⟩
  primask := false
  frames := []
  pendsv := none
  current := t
  thread := fun _ => .fresh
  asked := false

/-- The current thread is at baseline and in no call. -/
def AtBaseline (C : Core T) : Prop :=
  C.frames = [] ∧ C.pendsv = none ∧ C.primask = false ∧ C.thread C.current = .fresh

end Core

/-! ### The depth and the open regions -/

/-- The tokens count the depth up from `base` to `depth`. -/
def Opened (base : ℕ) : List ℕ → ℕ → Prop
  | [], depth => depth = base
  | token :: tokens, depth => depth = token + 1 ∧ Opened base tokens token

def PlaceOk (tokens : List ℕ) (depth : ℕ) : Place → Prop
  | .idle => True
  | .raise token => token = depth
  | .lower token => tokens.head? = some token
  | .look => depth = 0
  | .clear => depth = 0
  | .pend => depth = 0

/-- A context that took over at `base` and has the depth at `depth`. -/
structure CtxOk (base depth : ℕ) (c : Ctx) : Prop where
  opened : Opened base c.tokens depth
  place : PlaceOk c.tokens depth c.place

theorem ctxOk_fresh (depth : ℕ) : CtxOk depth depth .fresh := ⟨rfl, trivial⟩

/-- The depth is zero exactly when its only user has no open region. -/
theorem CtxOk.depth_eq_zero_iff {depth : ℕ} {c : Ctx} (h : CtxOk 0 depth c) : depth = 0 ↔ c.tokens = [] := by
  have hopened := h.opened
  cases htokens : c.tokens with
  | nil => grind [Opened]
  | cons token rest => grind [Opened]

/-- A region that ends gives the depth back to the one around it. -/
theorem Opened.tail {base token : ℕ} {tokens : List ℕ} {depth : ℕ} (h : Opened base tokens depth)
    (hhead : tokens.head? = some token) : Opened base tokens.tail token := by
  cases tokens with
  | nil => cases hhead
  | cons head rest =>
    cases hhead
    exact h.2

/-- **A step of a context** moves the depth with its open regions. -/
theorem CtxOk.step {base : ℕ} {w w' : Words} {c c' : Ctx} {op : Op} (h : CtxOk base w.depth c)
    (hstep : c.step w op = some (w', c')) : CtxOk base w'.depth c' := by
  obtain ⟨hopened, hplace⟩ := h
  unfold Ctx.step at hstep
  cases op with
  | go =>
    cases hc : c.place with
    | lower token =>
      rw [hc] at hstep hplace
      cases hstep
      exact ⟨hopened.tail hplace, by grind [PlaceOk]⟩
    | _ => constructor <;> grind [PlaceOk, Opened]
  | _ => constructor <;> grind [PlaceOk]

/-- The contexts one above the other, the innermost first. -/
def Nested : List Ctx → ℕ → Prop
  | [], depth => depth = 0
  | c :: rest, depth => ∃ base, Nested rest base ∧ CtxOk base depth c

theorem Nested.step {w w' : Words} {c c' : Ctx} {rest : List Ctx} {op : Op} (h : Nested (c :: rest) w.depth)
    (hstep : c.step w op = some (w', c')) : Nested (c' :: rest) w'.depth := by
  obtain ⟨base, hrest, hc⟩ := h
  exact ⟨base, hrest, hc.step hstep⟩

theorem Nested.enter {contexts : List Ctx} {depth : ℕ} (h : Nested contexts depth) :
    Nested (.fresh :: contexts) depth := ⟨depth, h, ctxOk_fresh depth⟩

theorem Nested.leave {contexts : List Ctx} {depth : ℕ} (h : Nested (.fresh :: contexts) depth) :
    Nested contexts depth := by
  obtain ⟨base, hrest, hfresh⟩ := h
  have hdepth : depth = base := hfresh.opened
  rw [hdepth]
  exact hrest

/-! ### The flag and the pending bit -/

/-- The context is on its way to pend PendSV. -/
def Pends (c : Ctx) : Prop := c.place = .clear ∨ c.place = .pend

/-- A request is noted in the pending bit or in the flag, or the context is on its way to the pending bit. -/
def Noted (w : Words) (c : Ctx) : Prop := w.pending = true ∨ w.deferred = true ∨ Pends c

/-- What a step of a context does to the flag and the pending bit. -/
structure StepWords (w w' : Words) (c c' : Ctx) (op : Op) : Prop where
  pending : w.pending = true → w'.pending = true
  request : op = .request → w'.pending = true
  deferred : w'.deferred = true → w.deferred = true
  noted : Noted w c → Noted w' c'

theorem step_words {w w' : Words} {c c' : Ctx} {op : Op} (h : c.step w op = some (w', c')) :
    StepWords w w' c c' op := by
  unfold Ctx.step at h
  constructor <;> grind [Noted, Pends]

/-- The thread has an open region, or is in the outermost enable before its look at the flag is answered. -/
def Holds (c : Ctx) : Prop := c.tokens ≠ [] ∨ c.place = .look ∨ c.place = .clear

/-- A flag that stands is the thread's to find. -/
theorem holds_step {w w' : Words} {c c' : Ctx} {op : Op} (hc : CtxOk 0 w.depth c)
    (h : c.step w op = some (w', c')) (hholds : w.deferred = true → Holds c) :
    w'.deferred = true → Holds c' := by
  obtain ⟨hopened, hplace⟩ := hc
  unfold Ctx.step at h
  unfold Holds at *
  cases op with
  | go =>
    cases hp : c.place with
    | lower token =>
      rw [hp] at h hplace
      cases h
      -- the outermost region ends at zero, and the look is next
      have htail : Opened 0 c.tokens.tail token := hopened.tail hplace
      cases ht : c.tokens.tail with
      | nil => grind [Opened]
      | cons head rest => grind
    | _ => grind
  | _ => grind

/-! ### Whole runs -/

namespace Core

variable {T : Type*} {C C' : Core T}

/-- Who may still have something under way, the innermost first. -/
def contexts (C : Core T) : List Ctx := C.frames ++ (kernelCtx C.pendsv ++ [C.thread C.current])

/-- What PendSV knows at each step of its dispatch. -/
def PendOk (w : Words) (asked : Bool) (thread : Ctx) : Option PendPlace → Prop
  | some .defer => thread.tokens ≠ []
  | some .clear => thread.tokens = []
  | some .call => thread.tokens = [] ∧ w.deferred = false
  | some (.kernel _) => thread.tokens = [] ∧ w.deferred = false ∧ (asked = true → w.pending = true)
  | _ => w.deferred = true → Holds thread

structure Inv (C : Core T) : Prop where
  nested : Nested C.contexts C.words.depth
  others : ∀ t, t ≠ C.current → CtxOk 0 0 (C.thread t)
  pendsv : PendOk C.words C.asked (C.thread C.current) C.pendsv
  /-- A request that no PendSV is about to answer is noted. -/
  asked : C.pendsv = none → C.asked = true →
    C.words.pending = true ∨ C.words.deferred = true ∨ ∃ c ∈ C.contexts, Pends c

theorem inv_boot (t : T) : Inv (boot t) where
  nested := ⟨0, rfl, ctxOk_fresh 0⟩
  others := fun _ _ => ctxOk_fresh 0
  pendsv := fun h => absurd h Bool.false_ne_true
  asked := fun _ h => absurd h Bool.false_ne_true

/-- A request is noted after a step of the innermost context, if it was before or is made now. -/
theorem noted_step {w w' : Words} {c c' : Ctx} {rest : List Ctx} {op : Op} {asked : Bool}
    (h : StepWords w w' c c' op)
    (hasked : asked = true → w.pending = true ∨ w.deferred = true ∨ ∃ d ∈ c :: rest, Pends d) :
    (asked || op == .request) = true →
      w'.pending = true ∨ w'.deferred = true ∨ ∃ d ∈ c' :: rest, Pends d := by
  obtain ⟨-, hrequest, -, hnoted⟩ := h
  grind [Noted]

/-- What PendSV knows stands when somebody above it, or the kernel in it, goes on. -/
theorem PendOk.step {w w' : Words} {c c' thread : Ctx} {op : Op} {asked : Bool} {place : Option PendPlace}
    (h : PendOk w asked thread place) (hs : StepWords w w' c c' op) :
    PendOk w' (asked || op == .request) thread place := by
  obtain ⟨hpending, hrequest, hdeferred, -⟩ := hs
  unfold PendOk at *
  split <;> grind

/-- With nothing above it the thread has the depth to itself. -/
theorem Inv.thread_ok (hi : Inv C) (hframes : C.frames = []) (hkernel : kernelCtx C.pendsv = []) :
    CtxOk 0 C.words.depth (C.thread C.current) := by
  have hnested := hi.nested
  unfold contexts at hnested
  rw [hframes, hkernel] at hnested
  obtain ⟨base, hbase, hthread⟩ := hnested
  have hzero : base = 0 := hbase
  rw [hzero] at hthread
  exact hthread

/-- A step of an interrupt. -/
theorem Inv.frameStep (hi : Inv C) {c c' : Ctx} {rest : List Ctx} {w' : Words} {op : Op}
    (hframes : C.frames = c :: rest) (hstep : c.step C.words op = some (w', c')) :
    Inv { C with words := w', frames := c' :: rest, asked := C.askedBy op } := by
  have hs := step_words hstep
  have hnested := hi.nested
  have hasked := hi.asked
  unfold contexts at hnested hasked
  rw [hframes] at hnested hasked
  exact ⟨Nested.step hnested hstep, hi.others, hi.pendsv.step hs, fun hnone => noted_step hs (hasked hnone)⟩

/-- A step of the kernel in PendSV. -/
theorem Inv.kernelStep (hi : Inv C) {c c' : Ctx} {w' : Words} {op : Op} (hframes : C.frames = [])
    (hpendsv : C.pendsv = some (.kernel c)) (hstep : c.step C.words op = some (w', c')) :
    Inv { C with words := w', pendsv := some (.kernel c'), asked := C.askedBy op } := by
  have hnested := hi.nested
  have hok := hi.pendsv
  unfold contexts at hnested
  rw [hframes, hpendsv] at hnested
  rw [hpendsv] at hok
  refine ⟨?_, hi.others, hok.step (step_words hstep), fun hnone => ?_⟩
  · show Nested (C.frames ++ _) _
    rw [hframes]
    exact Nested.step hnested hstep
  · cases hnone

/-- PendSV goes on to a step of its dispatch before the handler. -/
theorem Inv.moved (hi : Inv C) {place : PendPlace} {w : Words} (masked : Bool)
    (hkernel : kernelCtx C.pendsv = []) (hplace : kernelCtx (some place) = [])
    (hdepth : w.depth = C.words.depth) (hok : PendOk w C.asked (C.thread C.current) (some place)) :
    Inv { C with words := w, primask := masked, pendsv := some place } := by
  refine ⟨?_, hi.others, hok, fun hnone => ?_⟩
  · have hnested := hi.nested
    unfold contexts at hnested ⊢
    rw [hkernel] at hnested
    dsimp only
    rw [hplace, hdepth]
    exact hnested
  · cases hnone

/-- **A step of PendSV.** -/
theorem Inv.dispatchStep (hi : Inv C) (hframes : C.frames = []) (h : C.dispatchStep = some C') : Inv C' := by
  have hnested := hi.nested
  have hok := hi.pendsv
  unfold contexts at hnested
  unfold Core.dispatchStep at h
  cases hpendsv : C.pendsv with
  | none =>
    rw [hpendsv] at h
    cases h
  | some place =>
    rw [hpendsv] at h hok hnested
    cases place with
    | kernel c => cases h
    | mask =>
      cases h
      exact hi.moved true (by rw [hpendsv]; rfl) rfl rfl hok
    | look =>
      cases h
      exact hi.moved false (by rw [hpendsv]; rfl) rfl rfl hok
    | depth =>
      have hkernel : kernelCtx C.pendsv = [] := by rw [hpendsv]; rfl
      have hzero := CtxOk.depth_eq_zero_iff (hi.thread_ok hframes hkernel)
      cases h
      by_cases hdepth : C.words.depth = 0
      · rw [if_pos hdepth]
        exact hi.moved C.primask hkernel rfl rfl (hzero.1 hdepth)
      · rw [if_neg hdepth]
        exact hi.moved C.primask hkernel rfl rfl (mt hzero.2 hdepth)
    | defer =>
      cases h
      exact ⟨hnested, hi.others, fun _ => Or.inl hok, fun _ _ => Or.inr (Or.inl rfl)⟩
    | clear =>
      cases h
      exact hi.moved C.primask (by rw [hpendsv]; rfl) rfl rfl ⟨hok, rfl⟩
    | call =>
      cases h
      refine ⟨?_, hi.others, ⟨hok.1, hok.2, fun ha => absurd ha Bool.false_ne_true⟩, fun hnone => ?_⟩
      · rw [hframes] at hnested
        show Nested (C.frames ++ _) _
        rw [hframes]
        exact Nested.enter hnested
      · cases hnone

theorem Inv.finish (hi : Inv C) (t : T) (hframes : C.frames = [])
    (hpendsv : C.pendsv = some (.kernel .fresh)) : Inv { C with pendsv := none, current := t } := by
  have hnested := hi.nested
  have hok := hi.pendsv
  unfold contexts at hnested
  rw [hframes, hpendsv] at hnested
  rw [hpendsv] at hok
  obtain ⟨htokens, hdeferred, hpending⟩ := hok
  -- the thread that was interrupted is at depth zero, as all the others are
  obtain ⟨base, hbase, hthread⟩ := Nested.leave hnested
  have hzero : base = 0 := hbase
  rw [hzero] at hthread
  have hdepth : C.words.depth = 0 := (CtxOk.depth_eq_zero_iff hthread).2 htokens
  rw [hdepth] at hthread
  have hall : ∀ t, CtxOk 0 0 (C.thread t) := by
    intro t
    by_cases ht : t = C.current
    · rw [ht]
      exact hthread
    · exact hi.others t ht
  refine ⟨?_, fun t' _ => hall t', fun hd => ?_, fun _ ha => Or.inl (hpending ha)⟩
  · show Nested (C.frames ++ [C.thread t]) C.words.depth
    rw [hframes, hdepth]
    exact ⟨0, rfl, hall t⟩
  · rw [hdeferred] at hd
    cases hd

/-- A reschedule asked for is pending when the thread is in no region and no call. -/
theorem Inv.pending_of_fresh (hi : Inv C) (hframes : C.frames = []) (hpendsv : C.pendsv = none)
    (hfresh : C.thread C.current = .fresh) (hasked : C.asked = true) : C.words.pending = true := by
  have hok := hi.pendsv
  have hnoted := hi.asked hpendsv hasked
  unfold contexts at hnoted
  rw [hframes, hpendsv, hfresh] at hnoted
  rw [hpendsv, hfresh] at hok
  -- a flag that stands is found by a thread with an open region
  have hdown : C.words.deferred = false := by
    by_contra hd
    have hholds : Holds .fresh := hok (by simpa using hd)
    grind [Holds, Ctx.fresh]
  grind [Pends, Ctx.fresh, kernelCtx]

variable [DecidableEq T]

/-- A step of the thread. -/
theorem Inv.threadStep (hi : Inv C) {c' : Ctx} {w' : Words} {op : Op} (hframes : C.frames = [])
    (hpendsv : C.pendsv = none) (hstep : (C.thread C.current).step C.words op = some (w', c')) :
    Inv { C with
      words := w'
      thread := Function.update C.thread C.current c'
      asked := C.askedBy op } := by
  have hnested := hi.nested
  have hok := hi.pendsv
  have hasked := hi.asked hpendsv
  have hthread := hi.thread_ok hframes (by rw [hpendsv]; rfl)
  unfold contexts at hnested hasked
  rw [hframes, hpendsv] at hnested hasked
  rw [hpendsv] at hok
  refine ⟨?_, fun t ht => ?_, ?_, fun _ ha => ?_⟩
  · show Nested (C.frames ++ (kernelCtx C.pendsv ++ [Function.update C.thread C.current c' C.current])) _
    rw [hframes, hpendsv, Function.update_self]
    exact Nested.step hnested hstep
  · show CtxOk 0 0 (Function.update C.thread C.current c' t)
    rw [Function.update_of_ne ht]
    exact hi.others t ht
  · show PendOk w' _ (Function.update C.thread C.current c' C.current) C.pendsv
    rw [Function.update_self, hpendsv]
    exact holds_step hthread hstep hok
  · show _ ∨ _ ∨ ∃ c ∈ C.frames ++ (kernelCtx C.pendsv ++ [Function.update C.thread C.current c' C.current]), _
    rw [hframes, hpendsv, Function.update_self]
    exact noted_step (step_words hstep) hasked ha

theorem Inv.runStep (hi : Inv C) {op : Op} (h : C.runStep op = some C') : Inv C' := by
  unfold Core.runStep at h
  split at h
  · next hframes =>
    obtain ⟨⟨w', c'⟩, hstep, rfl⟩ := Option.map_eq_some_iff.1 h
    exact hi.frameStep hframes hstep
  · next hframes hpendsv =>
    obtain ⟨⟨w', c'⟩, hstep, rfl⟩ := Option.map_eq_some_iff.1 h
    exact hi.kernelStep hframes hpendsv hstep
  · cases h
  · next hframes hpendsv =>
    obtain ⟨-, hmap⟩ := Option.ite_none_right_eq_some.1 h
    obtain ⟨⟨w', c'⟩, hstep, rfl⟩ := Option.map_eq_some_iff.1 hmap
    exact hi.threadStep hframes hpendsv hstep

theorem Inv.next {act : Act T} (hi : Inv C) (h : C.next act = some C') : Inv C' := by
  cases act with
  | run op => exact hi.runStep h
  | mask masked =>
    obtain ⟨-, rfl⟩ := of_guard h
    exact ⟨hi.nested, hi.others, hi.pendsv, hi.asked⟩
  | enter =>
    obtain ⟨-, rfl⟩ := of_guard h
    refine ⟨Nested.enter hi.nested, hi.others, hi.pendsv, fun hnone ha => ?_⟩
    rcases hi.asked hnone ha with hp | hd | ⟨c, hmem, hpends⟩
    · exact Or.inl hp
    · exact Or.inr (Or.inl hd)
    · exact Or.inr (Or.inr ⟨c, List.mem_cons_of_mem _ hmem, hpends⟩)
  | leave =>
    unfold Core.next at h
    cases hframes : C.frames with
    | nil =>
      rw [hframes] at h
      cases h
    | cons c rest =>
      rw [hframes] at h
      obtain ⟨hfresh, rfl⟩ := of_guard h
      have hnested := hi.nested
      have hasked := hi.asked
      unfold contexts at hnested hasked
      rw [hframes, hfresh] at hnested hasked
      refine ⟨Nested.leave hnested, hi.others, hi.pendsv, fun hnone ha => ?_⟩
      rcases hasked hnone ha with hp | hd | ⟨c', hmem, hpends⟩
      · exact Or.inl hp
      · exact Or.inr (Or.inl hd)
      · -- an interrupt that returns pends nothing any more
        rcases List.mem_cons.1 hmem with rfl | hmem
        · rcases hpends with hpends | hpends <;> cases hpends
        · exact Or.inr (Or.inr ⟨c', hmem, hpends⟩)
  | take =>
    obtain ⟨hguard, rfl⟩ := of_guard h
    have hnested := hi.nested
    have hok := hi.pendsv
    unfold contexts at hnested
    rw [hguard.2.2.1] at hnested hok
    refine ⟨hnested, hi.others, hok, fun hnone => ?_⟩
    cases hnone
  | dispatch =>
    obtain ⟨hframes, hstep⟩ := Option.ite_none_right_eq_some.1 h
    exact hi.dispatchStep hframes hstep
  | finish t =>
    obtain ⟨hguard, rfl⟩ := of_guard h
    exact hi.finish t hguard.1 hguard.2

theorem inv_of_run {t : T} {acts : List (Act T)} (h : run next (boot t) acts = some C) : Inv C := by
  apply run_invariant (fun _ _ _ hi hnext => Inv.next hi hnext) (inv_boot t) h

/-! ### Delivery -/

/-- A PendSV taken at depth zero calls the handler. -/
theorem run_dispatch_of_depth_zero (hframes : C.frames = []) (hpendsv : C.pendsv = some .mask)
    (hdepth : C.words.depth = 0) :
    run next C (List.replicate 5 .dispatch) = some { C with
      words := { C.words with deferred := false }
      primask := false
      pendsv := some (.kernel .fresh)
      asked := false } := by
  obtain ⟨⟨depth, deferred, pending⟩, primask, frames, pendsv, current, thread, asked⟩ := C
  dsimp only at hframes hpendsv hdepth
  subst hframes hpendsv hdepth
  rfl

/-- **Deferred reschedules on ARMv6-M.**  The handler is called only at depth zero of the interrupted thread, and
a PendSV defers only above it.  A thread that is back at baseline while a reschedule is asked for finds it
pending and does not run before PendSV has called the handler. -/
theorem deferred_reschedules_delivered (t : T) (acts : List (Act T)) (C : Core T)
    (h : run next (boot t) acts = some C) :
    (C.pendsv = some .call ∨ (∃ c, C.pendsv = some (.kernel c)) → (C.thread C.current).tokens = []) ∧
      (C.pendsv = some .call → C.frames = [] → C.words.depth = 0) ∧
      (C.pendsv = some .defer → (C.thread C.current).tokens ≠ []) ∧
      (C.asked = true → C.AtBaseline →
        C.words.pending = true ∧ (∀ op, C.next (.run op) = none) ∧ (∀ masked, C.next (.mask masked) = none) ∧
          ∃ C', run next C (.take :: List.replicate 5 .dispatch) = some C' ∧
            C'.pendsv = some (.kernel .fresh) ∧ C'.asked = false ∧ C'.current = C.current ∧
            C'.thread = C.thread) := by
  have hi := inv_of_run h
  have hok := hi.pendsv
  refine ⟨?_, ?_, ?_, ?_⟩
  · intro hcalled
    rcases hcalled with hcall | ⟨c, hkernel⟩
    · rw [hcall] at hok
      exact hok.1
    · rw [hkernel] at hok
      exact hok.1
  · intro hcall hframes
    have hthread := hi.thread_ok hframes (by rw [hcall]; rfl)
    rw [hcall] at hok
    exact hthread.depth_eq_zero_iff.2 hok.1
  · intro hdefer
    rw [hdefer] at hok
    exact hok
  · intro hasked hbase
    obtain ⟨hframes, hpendsv, hprimask, hfresh⟩ := hbase
    have hpending := hi.pending_of_fresh hframes hpendsv hfresh hasked
    have hstopped : ¬ C.threadRuns := fun hruns => hruns.2.2 ⟨hpending, hprimask⟩
    refine ⟨hpending, ?_, ?_, ?_⟩
    · intro op
      show C.runStep op = none
      unfold runStep
      rw [hframes, hpendsv]
      exact if_neg hstopped
    · intro masked
      apply if_neg
      rintro (habove | hkernel | hruns)
      · exact habove hframes
      · rw [hpendsv] at hkernel
        exact hkernel rfl
      · exact hstopped hruns
    · have hdepth : C.words.depth = 0 := by
        have hthread := hi.thread_ok hframes (by rw [hpendsv]; rfl)
        rw [hfresh] at hthread
        exact hthread.depth_eq_zero_iff.2 rfl
      have htake : C.next .take =
          some { C with words := { C.words with pending := false }, pendsv := some .mask } :=
        if_pos ⟨hprimask, hframes, hpendsv, hpending⟩
      rw [run_cons, htake]
      exact ⟨_, run_dispatch_of_depth_zero hframes rfl hdepth, rfl, rfl, rfl, rfl⟩

/-- A thread disables, an interrupt asks, PendSV defers, and the thread enables again. -/
def deferredOnce : List (Act Unit) :=
  [.run .disable, .run .go, .enter, .run .request, .leave, .take, .dispatch, .dispatch, .dispatch, .dispatch,
    .run .enable, .run .go, .run .go, .run .go, .run .go]

theorem deferred_reschedules_delivered_once :
    ∃ C C' : Core Unit, run next (boot ()) deferredOnce = some C ∧ C.asked = true ∧ C.AtBaseline ∧
      C.words.pending = true ∧ run next C (.take :: List.replicate 5 .dispatch) = some C' ∧
      C'.pendsv = some (.kernel .fresh) := by
  have hmap : (run next (boot ()) deferredOnce).map
      (fun C => (C.asked, C.frames, C.pendsv, C.primask, C.thread C.current)) =
        some (true, [], none, false, .fresh) := by decide +kernel
  obtain ⟨C, hrun, hend⟩ := Option.map_eq_some_iff.1 hmap
  simp only [Prod.mk.injEq] at hend
  obtain ⟨hasked, hbase⟩ := hend
  obtain ⟨hpending, -, -, C', hcalled, hkernel, -⟩ :=
    (deferred_reschedules_delivered () deferredOnce C hrun).2.2.2 hasked hbase
  exact ⟨C, C', hrun, hasked, hbase, hpending, hcalled, hkernel⟩

end Core

end Cyros.Port.Armv6mDeferral
