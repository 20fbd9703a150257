import Mathlib.Logic.Function.Basic
import Cyros.Lib.Run

/-!
# The type-erased callable

`cyros::function` keeps a callable of any type in a buffer of its own or on the heap, and two pointers to
functions that know its type: the `invoker` calls it, the `manager` moves or destroys it.  A trivially copyable
callable in the buffer needs no manager: a move copies its bytes, and no destructor is run.

Objects of callable types are numbered as they are made.  `ended` counts how often the life of one was ended,
by its destructor or, where it is trivially copyable and nothing is run, when its function gave it up; `freed`
counts how often its block was given back.  An operation that reads an object through a pointer to another
type, or one whose life is over, has no result.

The operations are taken one after the other: what a callable, its move or its destructor does by itself to
other functions is not modelled, nor is a constructor that throws.

`Contents` says what functions are for: each has a callable or is empty, and a call runs the one it has.
-/

namespace Cyros.Kernel

/-- `heap_policy` -/
inductive HeapPolicy
  | noHeap
  | canUseHeap
  | mustUseHeap
  deriving DecidableEq, Repr

/-- Where a callable is kept, and which of the invokers and managers go with it. -/
inductive Scheme
  | inline
  | heap
  deriving DecidableEq, Repr

/-- `storage`: nothing, or the object that is in the buffer or that `heap_ptr` points to. -/
inductive Storage
  | none
  | holds (scheme : Scheme) (id : ℕ)
  deriving DecidableEq, Repr

/-- The types of callables, and the parameters of the template. -/
structure FunctionTraits (F : Type) where
  size : F → ℕ
  align : F → ℕ
  triviallyCopyable : F → Bool
  inlineSize : ℕ
  storageAlign : ℕ
  policy : HeapPolicy

namespace FunctionTraits

variable {F : Type} (cfg : FunctionTraits F)

/-- `fits_inline` -/
def fitsInline (T : F) : Bool := cfg.size T ≤ cfg.inlineSize && cfg.align T ≤ cfg.storageAlign

/-- `use_heap`, with `force_heap`. -/
def useHeap (T : F) : Bool := cfg.policy = .mustUseHeap || !cfg.fitsInline T

/-- The assertion on the heap policy, with `allow_heap`. -/
def compiles (T : F) : Bool := !cfg.useHeap T || cfg.policy ≠ .noHeap

/-- The manager that `emplace` installs. -/
def managerOf : Scheme × F → Option (Scheme × F)
  | (.inline, T) => if cfg.triviallyCopyable T then none else some (.inline, T)
  | (.heap, T) => some (.heap, T)

end FunctionTraits

/-- A function: `invoke_inline<F>` is `(inline, F)` and so on, `nullptr` is `none`. -/
structure FunctionObject (F : Type) where
  buffer : Storage
  invoker : Option (Scheme × F)
  manager : Option (Scheme × F)
  deriving DecidableEq, Repr

/-- An object of a callable type; `callable` says which callable it is, and goes with it when it is moved. -/
structure CallableObject (F C : Type) where
  type : F
  callable : C
  scheme : Scheme
  ended : ℕ
  freed : ℕ
  deriving DecidableEq, Repr

structure Functions (N F C : Type) where
  object : ℕ → Option (CallableObject F C)
  count : ℕ
  /-- The functions that exist. -/
  function : N → Option (FunctionObject F)
  /-- What calls have run, the last first. -/
  invoked : List (N × C)

inductive FunctionAct (N F C : Type)
  | construct (f : N)
  | constructFrom (f : N) (T : F) (callable : C)
  | moveConstruct (f other : N)
  | assign (f other : N)
  | assignNull (f : N)
  | assignFrom (f : N) (T : F) (callable : C)
  | reset (f : N)
  | call (f : N)
  | destruct (f : N)
  deriving DecidableEq, Repr

namespace Functions

variable {N F C : Type}

def boot : Functions N F C := ⟨fun _ => none, 0, fun _ => none, []⟩

/-- A new object. -/
def make (W : Functions N F C) (m : Scheme × F) (callable : C) : Functions N F C :=
  { W with
    object := Function.update W.object W.count (some ⟨m.2, callable, m.1, 0, 0⟩)
    count := W.count + 1 }

/-- The life of an object is over. -/
def endLife (W : Functions N F C) (id : ℕ) : Functions N F C :=
  { W with object := Function.update W.object id ((W.object id).map fun o => { o with ended := o.ended + 1 }) }

def free (W : Functions N F C) (id : ℕ) : Functions N F C :=
  { W with object := Function.update W.object id ((W.object id).map fun o => { o with freed := o.freed + 1 }) }

section Operations

variable [DecidableEq N]

def put (W : Functions N F C) (f : N) (fn : FunctionObject F) : Functions N F C :=
  { W with function := Function.update W.function f (some fn) }

/-- `hand_over_pointers`, with what the buffer of `f` has become. -/
def handOver (W : Functions N F C) (f other : N) (s : Storage) (fn : FunctionObject F) : Functions N F C :=
  (W.put f ⟨s, fn.invoker, fn.manager⟩).put other ⟨fn.buffer, none, none⟩

variable [DecidableEq F]

/-- The living object of the given type in a storage, `object<F>(s)` or `*static_cast<F*>(s.heap_ptr)`. -/
def lives (W : Functions N F C) (m : Scheme × F) : Storage → Option (ℕ × C)
  | .none => none
  | .holds scheme id => match W.object id with
    | some o =>
        if scheme = m.1 ∧ o.scheme = m.1 ∧ o.type = m.2 ∧ o.ended = 0 ∧ o.freed = 0 then some (id, o.callable)
        else none
    | none => none

/-- `operation::destroy` of `manage_inline` and `manage_heap`. -/
def manageDestroy (W : Functions N F C) (m : Scheme × F) (s : Storage) : Option (Functions N F C) :=
  (W.lives m s).map fun x => match m.1 with
    | .inline => W.endLife x.1
    | .heap => (W.endLife x.1).free x.1

/-- `destroy` -/
def destroy (W : Functions N F C) (f : N) : Option (Functions N F C) :=
  (W.function f).bind fun fn => match fn.manager, fn.invoker with
    | some m, _ => W.manageDestroy m fn.buffer
    -- trivially copyable: nothing is run
    | none, some m => (W.lives m fn.buffer).map fun x => W.endLife x.1
    | none, none => some W

/-- A callable in the buffer of `other` is made anew in the buffer of `f`, and the old one's life is over. -/
def relocate (W : Functions N F C) (f other : N) (m : Scheme × F) (fn : FunctionObject F) :
    Option (Functions N F C) :=
  (W.lives m fn.buffer).map fun x =>
    ((W.make m x.2).endLife x.1).handOver f other (.holds m.1 W.count) fn

/-- `take`, with `operation::move` of the managers. -/
def take (W : Functions N F C) (f other : N) : Option (Functions N F C) :=
  (W.function other).bind fun fn => match fn.manager, fn.invoker with
    | some (.inline, T), _ => W.relocate f other (.inline, T) fn
    | some (.heap, _), _ => match fn.buffer with
      | .holds .heap id => some (W.handOver f other (.holds .heap id) fn)
      | _ => none
    -- trivially copyable: its bytes are copied
    | none, some m => W.relocate f other m fn
    | none, none => some (W.handOver f other fn.buffer fn)

/-- `emplace` -/
def emplace (cfg : FunctionTraits F) (W : Functions N F C) (f : N) (T : F) (callable : C) :
    Option (Functions N F C) :=
  (W.destroy f).map fun W =>
    let m : Scheme × F := (if cfg.useHeap T then .heap else .inline, T)
    (W.make m callable).put f ⟨.holds m.1 W.count, some m, cfg.managerOf m⟩

/-- `reset` -/
def reset (W : Functions N F C) (f : N) : Option (Functions N F C) :=
  (W.destroy f).bind fun W => (W.function f).map fun fn => W.put f ⟨fn.buffer, none, none⟩

/-- `operator()` -/
def call (W : Functions N F C) (f : N) : Option (Functions N F C) :=
  (W.function f).bind fun fn => fn.invoker.bind fun m =>
    (W.lives m fn.buffer).map fun x => { W with invoked := (f, x.2) :: W.invoked }

/-- **One operation.** -/
def next (cfg : FunctionTraits F) (W : Functions N F C) : FunctionAct N F C → Option (Functions N F C)
  | .construct f => some (W.put f ⟨.none, none, none⟩)
  | .constructFrom f T callable => (W.put f ⟨.none, none, none⟩).emplace cfg f T callable
  | .moveConstruct f other => (W.put f ⟨.none, none, none⟩).take f other
  | .assign f other => if f = other then some W else (W.destroy f).bind fun W => W.take f other
  | .assignNull f | .reset f => W.reset f
  | .assignFrom f T callable => W.emplace cfg f T callable
  | .call f => W.call f
  | .destruct f => (W.destroy f).map fun W => { W with function := Function.update W.function f none }

end Operations

/-- What a program may ask for: a function is made once and used while it exists, a callable is of a type that
the template accepts, and an empty function is not called. -/
def asks (cfg : FunctionTraits F) (W : Functions N F C) : FunctionAct N F C → Prop
  | .construct f => W.function f = none
  | .constructFrom f T _ => W.function f = none ∧ cfg.compiles T = true
  | .moveConstruct f other => W.function f = none ∧ W.function other ≠ none
  | .assign f other => W.function f ≠ none ∧ W.function other ≠ none
  | .assignNull f | .reset f | .destruct f => W.function f ≠ none
  | .assignFrom f T _ => W.function f ≠ none ∧ cfg.compiles T = true
  | .call f => (W.function f).bind (·.invoker) ≠ none

instance [DecidableEq F] (cfg : FunctionTraits F) (W : Functions N F C) :
    (act : FunctionAct N F C) → Decidable (W.asks cfg act)
  | .construct _ => inferInstanceAs (Decidable (_ = none))
  | .constructFrom .. => inferInstanceAs (Decidable (_ = none ∧ _ = true))
  | .moveConstruct .. => inferInstanceAs (Decidable (_ = none ∧ _ ≠ none))
  | .assign .. => inferInstanceAs (Decidable (_ ≠ none ∧ _ ≠ none))
  | .assignNull _ | .reset _ | .destruct _ => inferInstanceAs (Decidable (_ ≠ none))
  | .assignFrom .. => inferInstanceAs (Decidable (_ ≠ none ∧ _ = true))
  | .call _ => inferInstanceAs (Decidable (_ ≠ none))

/-- What a function shows: whether it exists, and what a call of it would run. -/
def contents [DecidableEq F] (W : Functions N F C) (f : N) : Option (Option C) :=
  (W.function f).map fun fn => fn.invoker.bind fun m => (W.lives m fn.buffer).map Prod.snd

/-- The function has the object. -/
def Holds (W : Functions N F C) (f : N) (id : ℕ) : Prop :=
  ∃ fn m, W.function f = some fn ∧ fn.invoker = some m ∧ fn.buffer = .holds m.1 id

end Functions

/-- Each function that exists has a callable or is empty, and a call runs the callable it has. -/
structure Contents (N C : Type) where
  holds : N → Option (Option C)
  invoked : List (N × C)

namespace Contents

variable {N F C : Type}

def boot : Contents N C := ⟨fun _ => none, []⟩

variable [DecidableEq N]

def set (V : Contents N C) (f : N) (x : Option (Option C)) : Contents N C :=
  { V with holds := Function.update V.holds f x }

/-- The callable of `other` is now that of `f`. -/
def move (V : Contents N C) (f other : N) : Contents N C := (V.set f (V.holds other)).set other (some none)

def next (V : Contents N C) : FunctionAct N F C → Contents N C
  | .construct f | .assignNull f | .reset f => V.set f (some none)
  | .constructFrom f _ callable | .assignFrom f _ callable => V.set f (some (some callable))
  | .moveConstruct f other => V.move f other
  | .assign f other => if f = other then V else V.move f other
  | .call f => match V.holds f with
    | some (some callable) => { V with invoked := (f, callable) :: V.invoked }
    | _ => V
  | .destruct f => V.set f none

end Contents

end Cyros.Kernel
