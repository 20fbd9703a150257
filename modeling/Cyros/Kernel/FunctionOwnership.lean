import Cyros.Kernel.Function

/-!
# Who owns a callable

Each function that is not empty owns one living object, and no two own the same one; every other object has
ended, once.  `own` says which object each function has, and `Sound` that the pointers and the objects are as
`own` says.  An operation is then a change of `own` at one function or at two, and each of `make`, `gone`,
`transfer`, `blank` and `erase` is one such change.

* `Refines`: what the functions show is what `Contents` says.
* `Refines.next`: every operation that a program may ask for is done, and keeps the two in step.
* `callables_owned_once`: so it is in every sequence of operations.
-/

namespace Cyros.Kernel.Functions

open Cyros.Lib

variable {N F C : Type}
variable {cfg : FunctionTraits F} {W : Functions N F C} {f g : N} {fn : FunctionObject F} {m : Scheme × F}
  {id : ℕ} {c : C} {s : Storage}

/-! ### What the operations change -/

@[grind =] theorem put_function [DecidableEq N] (x : N) :
    (W.put f fn).function x = if x = f then some fn else W.function x := Function.update_apply ..

@[grind =] theorem put_object [DecidableEq N] (i : ℕ) : (W.put f fn).object i = W.object i := rfl

@[grind =] theorem put_count [DecidableEq N] : (W.put f fn).count = W.count := rfl

@[grind =] theorem make_function (x : N) : (W.make m c).function x = W.function x := rfl

@[grind =] theorem make_object (i : ℕ) :
    (W.make m c).object i = if i = W.count then some ⟨m.2, c, m.1, 0, 0⟩ else W.object i := Function.update_apply ..

@[grind =] theorem make_count : (W.make m c).count = W.count + 1 := rfl

@[grind =] theorem endLife_function (x : N) : (W.endLife id).function x = W.function x := rfl

@[grind =] theorem endLife_object (i : ℕ) : (W.endLife id).object i =
    if i = id then (W.object id).map fun o => { o with ended := o.ended + 1 } else W.object i :=
  Function.update_apply ..

@[grind =] theorem endLife_count : (W.endLife id).count = W.count := rfl

@[grind =] theorem free_function (x : N) : (W.free id).function x = W.function x := rfl

@[grind =] theorem free_object (i : ℕ) : (W.free id).object i =
    if i = id then (W.object id).map fun o => { o with freed := o.freed + 1 } else W.object i :=
  Function.update_apply ..

@[grind =] theorem free_count : (W.free id).count = W.count := rfl

theorem put_put [DecidableEq N] (W : Functions N F C) (f : N) (a b : FunctionObject F) :
    (W.put f a).put f b = W.put f b := by
  simp [put]

/-! ### Who owns what -/

/-- What a function has: the invoker that goes with it, the object, and the callable. -/
structure Owned (F C : Type) where
  kind : Scheme × F
  id : ℕ
  callable : C

/-- **Who owns what**: each function that is not empty a living object of its own, of the type that its pointers
are for; every other object has ended, once. -/
structure Sound (cfg : FunctionTraits F) (own : N → Option (Option (Owned F C))) (W : Functions N F C) : Prop where
  fresh : ∀ id, W.count ≤ id → W.object id = none
  absent : ∀ f, own f = none → W.function f = none
  empty : ∀ f, own f = some none → W.function f ≠ none ∧
    ∀ fn, W.function f = some fn → fn.invoker = none ∧ fn.manager = none
  owner : ∀ f x, own f = some (some x) →
    W.function f = some ⟨.holds x.kind.1 x.id, some x.kind, cfg.managerOf x.kind⟩ ∧
      W.object x.id = some ⟨x.kind.2, x.callable, x.kind.1, 0, 0⟩
  apart : ∀ f g x y, own f = some (some x) → own g = some (some y) → x.id = y.id → f = g
  held : ∀ id o, W.object id = some o → o.ended = 0 → ∃ f x, own f = some (some x) ∧ x.id = id
  once : ∀ id o, W.object id = some o → o.ended = 0 ∧ o.freed = 0 ∨
    o.ended = 1 ∧ o.freed = if o.scheme = .heap then 1 else 0

variable {own : N → Option (Option (Owned F C))} {x : Owned F C}

namespace Sound

theorem blank_of_empty (h : Sound cfg own W) (hf : own f = some none) :
    ∃ s, W.function f = some ⟨s, none, none⟩ := by
  obtain ⟨hne, hnull⟩ := h.empty f hf
  obtain ⟨fn, hfn⟩ := Option.ne_none_iff_exists'.1 hne
  obtain ⟨hinv, hman⟩ := hnull fn hfn
  obtain ⟨s, inv, man⟩ := fn
  subst hinv hman
  exact ⟨s, hfn⟩

theorem function_eq_none (h : Sound cfg own W) : W.function f = none ↔ own f = none := by
  refine ⟨fun hf => ?_, h.absent f⟩
  cases hown : own f with
  | none => rfl
  | some y =>
      cases y with
      | none => exact absurd hf (h.empty f hown).1
      | some x => cases hf.symm.trans (h.owner f x hown).1

theorem lives [DecidableEq F] (h : Sound cfg own W) (hf : own f = some (some x)) :
    W.lives x.kind (.holds x.kind.1 x.id) = some (x.id, x.callable) := by
  simp [Functions.lives, (h.owner f x hf).2]

theorem own_of_holds (h : Sound cfg own W) (hf : W.Holds f id) : ∃ x, own f = some (some x) ∧ x.id = id := by
  obtain ⟨fn, m, hfn, hinv, hbuf⟩ := hf
  cases hown : own f with
  | none => cases hfn.symm.trans (h.absent f hown)
  | some y =>
      cases y with
      | none => cases hinv.symm.trans ((h.empty f hown).2 fn hfn).1
      | some x =>
          cases hfn.symm.trans (h.owner f x hown).1
          cases hinv
          cases hbuf
          exact ⟨x, rfl, rfl⟩

/-- A living object is that of exactly one function. -/
theorem holder (h : Sound cfg own W) {o : CallableObject F C} (ho : W.object id = some o)
    (hend : o.ended = 0) : ∃! f, W.Holds f id := by
  obtain ⟨f, x, hown, rfl⟩ := h.held id o ho hend
  refine ⟨f, ⟨_, _, (h.owner f x hown).1, rfl, rfl⟩, fun g hg => ?_⟩
  obtain ⟨y, hy, hid⟩ := h.own_of_holds hg
  exact h.apart g f y x hy hown hid

end Sound

/-! ### The changes

In each of them the living objects keep their owners but for the functions that it is about; `held` says who
that is, and the rest is a matter of which updates are read. -/

/-- The life of what a function has is over, and its block is given back. -/
def gone (W : Functions N F C) (x : Owned F C) : Functions N F C :=
  match x.kind.1 with
  | .inline => W.endLife x.id
  | .heap => (W.endLife x.id).free x.id

section Changes

variable [DecidableEq N]

namespace Sound

/-- A function that had nothing gets a new object. -/
theorem make (h : Sound cfg own W) (hf : own f = some none) :
    Sound cfg (Function.update own f (some (some ⟨m, W.count, c⟩)))
      ((W.make m c).put f ⟨.holds m.1 W.count, some m, cfg.managerOf m⟩) := by
  obtain ⟨hfresh, habsent, hempty, howner, hapart, hheld, honce⟩ := h
  refine ⟨?_, ?_, ?_, ?_, ?_, ?_, ?_⟩
  · grind
  · grind [Function.update_apply]
  · grind [Function.update_apply]
  · grind [Function.update_apply]
  · grind [Function.update_apply]
  · intro id o ho hend
    by_cases hid : id = W.count
    · exact ⟨f, _, Function.update_self .., hid.symm⟩
    · obtain ⟨g, y, hg, hy⟩ := hheld id o (by grind) hend
      refine ⟨g, y, ?_, hy⟩
      grind [Function.update_apply]
  · grind

theorem gone (h : Sound cfg own W) (hf : own f = some (some x)) :
    Sound cfg (Function.update own f (some none)) ((W.gone x).put f ⟨s, none, none⟩) := by
  obtain ⟨hfresh, habsent, hempty, howner, hapart, hheld, honce⟩ := h
  obtain ⟨⟨scheme, T⟩, id, c⟩ := x
  refine ⟨?_, ?_, ?_, ?_, ?_, ?_, ?_⟩
  · cases scheme <;> grind [Functions.gone]
  · cases scheme <;> grind [Functions.gone, Function.update_apply]
  · cases scheme <;> grind [Functions.gone, Function.update_apply]
  · cases scheme <;> grind [Functions.gone, Function.update_apply]
  · grind [Function.update_apply]
  · intro id' o ho hend
    have hne : id' ≠ id := by cases scheme <;> grind [Functions.gone]
    obtain ⟨g, y, hg, hy⟩ := hheld id' o (by cases scheme <;> grind [Functions.gone]) hend
    refine ⟨g, y, ?_, hy⟩
    grind [Function.update_apply]
  · cases scheme <;> grind [Functions.gone]

/-- A block changes hands. -/
theorem transfer (h : Sound cfg own W) (hfg : f ≠ g) (hf : own f = some none) (hg : own g = some (some x)) :
    Sound cfg (Function.update (Function.update own f (some (some x))) g (some none))
      ((W.put f ⟨.holds x.kind.1 x.id, some x.kind, cfg.managerOf x.kind⟩).put g ⟨s, none, none⟩) := by
  obtain ⟨hfresh, habsent, hempty, howner, hapart, hheld, honce⟩ := h
  refine ⟨hfresh, ?_, ?_, ?_, ?_, ?_, honce⟩
  · grind [Function.update_apply]
  · grind [Function.update_apply]
  · grind [Function.update_apply]
  · grind [Function.update_apply]
  · intro id o ho hend
    obtain ⟨u, y, hu, hy⟩ := hheld id o ho hend
    by_cases hug : u = g
    · refine ⟨f, x, ?_, ?_⟩
      · grind [Function.update_apply]
      · grind
    · refine ⟨u, y, ?_, hy⟩
      grind [Function.update_apply]

/-- A function is made empty, or the bytes of an empty one change. -/
theorem blank (h : Sound cfg own W) (hf : ∀ x, own f ≠ some (some x)) :
    Sound cfg (Function.update own f (some none)) (W.put f ⟨s, none, none⟩) := by
  obtain ⟨hfresh, habsent, hempty, howner, hapart, hheld, honce⟩ := h
  refine ⟨hfresh, ?_, ?_, ?_, ?_, fun id o ho hend => ?_, honce⟩
  · grind [Function.update_apply]
  · grind [Function.update_apply]
  · grind [Function.update_apply]
  · grind [Function.update_apply]
  · obtain ⟨u, y, hu, hy⟩ := hheld id o ho hend
    refine ⟨u, y, ?_, hy⟩
    grind [Function.update_apply]

/-- An empty function is no more. -/
theorem erase (h : Sound cfg own W) (hf : own f = some none) :
    Sound cfg (Function.update own f none) { W with function := Function.update W.function f none } := by
  obtain ⟨hfresh, habsent, hempty, howner, hapart, hheld, honce⟩ := h
  refine ⟨hfresh, ?_, ?_, ?_, ?_, fun id o ho hend => ?_, honce⟩
  · grind [Function.update_apply]
  · grind [Function.update_apply]
  · grind [Function.update_apply]
  · grind [Function.update_apply]
  · obtain ⟨u, y, hu, hy⟩ := hheld id o ho hend
    refine ⟨u, y, ?_, hy⟩
    grind [Function.update_apply]

/-- **`destroy`** ends what the function has, and does not touch its pointers. -/
theorem destroy [DecidableEq F] (h : Sound cfg own W) (hf : own f ≠ none) :
    ∃ W₁, W.destroy f = some W₁ ∧ W₁.function = W.function ∧ W₁.invoked = W.invoked ∧
      ∀ s, Sound cfg (Function.update own f (some none)) (W₁.put f ⟨s, none, none⟩) := by
  cases hown : own f with
  | none => exact absurd hown hf
  | some y =>
      cases y with
      | none =>
          obtain ⟨s, hfn⟩ := h.blank_of_empty hown
          exact ⟨W, by simp [Functions.destroy, hfn], rfl, rfl, fun s => h.blank (by simp [hown])⟩
      | some x =>
          refine ⟨W.gone x, ?_, ?_, ?_, fun s => h.gone hown⟩
          · have hlives := h.lives hown
            have hfn := (h.owner f x hown).1
            obtain ⟨⟨scheme, T⟩, id, c⟩ := x
            cases scheme with
            | inline =>
                cases ht : cfg.triviallyCopyable T with
                | true => simp [Functions.destroy, hfn, FunctionTraits.managerOf, ht, hlives, Functions.gone]
                | false =>
                    simp [Functions.destroy, hfn, FunctionTraits.managerOf, ht, manageDestroy, hlives, Functions.gone]
            | heap => simp [Functions.destroy, hfn, FunctionTraits.managerOf, manageDestroy, hlives, Functions.gone]
          · unfold Functions.gone
            split <;> rfl
          · unfold Functions.gone
            split <;> rfl

end Sound

end Changes

/-! ### The operations -/

/-- **The contents are as they should be.** -/
structure Refines (cfg : FunctionTraits F) (own : N → Option (Option (Owned F C))) (W : Functions N F C)
    (V : Contents N C) : Prop where
  sound : Sound cfg own W
  holds : V.holds = fun u => (own u).map (Option.map Owned.callable)
  invoked : V.invoked = W.invoked

variable {V : Contents N C}

theorem refines_boot : Refines cfg (fun _ => none) (boot : Functions N F C) Contents.boot :=
  ⟨⟨fun _ _ => rfl, fun _ _ => rfl, by simp, by simp, by simp, by simp [boot], by simp [boot]⟩, rfl, rfl⟩

theorem Refines.contents [DecidableEq F] (h : Refines cfg own W V) (f : N) : W.contents f = V.holds f := by
  simp only [h.holds, Functions.contents]
  cases hown : own f with
  | none => simp [h.sound.absent f hown]
  | some y =>
      cases y with
      | none =>
          obtain ⟨s, hfn⟩ := h.sound.blank_of_empty hown
          simp [hfn]
      | some x => simp [(h.sound.owner f x hown).1, h.sound.lives hown]

/-- A call runs what the function has. -/
theorem Refines.call [DecidableEq F] (h : Refines cfg own W V) (hasks : (W.function f).bind (·.invoker) ≠ none) :
    ∃ c, V.holds f = some (some c) ∧ W.call f = some { W with invoked := (f, c) :: W.invoked } ∧
      Refines cfg own { W with invoked := (f, c) :: W.invoked } { V with invoked := (f, c) :: V.invoked } := by
  cases hown : own f with
  | none => simp [h.sound.absent f hown] at hasks
  | some y =>
      cases y with
      | none =>
          obtain ⟨s, hfn⟩ := h.sound.blank_of_empty hown
          simp [hfn] at hasks
      | some x =>
          have hfn := (h.sound.owner f x hown).1
          refine ⟨x.callable, by simp [h.holds, hown], ?_, ?_⟩
          · simp [Functions.call, hfn, h.sound.lives hown]
          · obtain ⟨⟨hfresh, habsent, hempty, howner, hapart, hheld, honce⟩, hholds, hinvoked⟩ := h
            exact ⟨⟨hfresh, habsent, hempty, howner, hapart, hheld, honce⟩, hholds, by rw [hinvoked]⟩

variable [DecidableEq N]

theorem holds_set (h : V.holds = fun u => (own u).map (Option.map Owned.callable)) (f : N)
    (y : Option (Option (Owned F C))) :
    (V.set f (y.map (Option.map Owned.callable))).holds =
      fun u => (Function.update own f y u).map (Option.map Owned.callable) := by
  funext u
  rw [Contents.set, h]
  by_cases hu : u = f
  · subst hu
    simp
  · simp [hu]

theorem move_set (hfg : f ≠ g) (y : Option (Option C)) : (V.set f y).move f g = V.move f g := by
  simp [Contents.move, Contents.set, hfg.symm]

theorem Refines.blank (h : Refines cfg own W V) (hf : ∀ x, own f ≠ some (some x)) :
    Refines cfg (Function.update own f (some none)) (W.put f ⟨s, none, none⟩) (V.set f (some none)) :=
  ⟨h.sound.blank hf, holds_set h.holds f (some none), h.invoked⟩

variable [DecidableEq F]

/-- What `take` does to `f` does not depend on what `f` was. -/
theorem take_put (hfg : f ≠ g) : (W.put f fn).take f g = W.take f g := by
  have hfunction : (W.put f fn).function g = W.function g := Function.update_of_ne hfg.symm _ _
  have hover : ∀ (W : Functions N F C) s fn', (W.put f fn).handOver f g s fn' = W.handOver f g s fn' := by
    intro W s fn'
    simp only [handOver, put_put]
  have hrelocate : ∀ m fn', (W.put f fn).relocate f g m fn' = W.relocate f g m fn' := by
    intro m fn'
    show ((W.lives m fn'.buffer).map fun x =>
      (((W.make m x.2).endLife x.1).put f fn).handOver f g (.holds m.1 W.count) fn') = _
    simp only [hover]
    rfl
  simp only [take, hfunction, hover, hrelocate]

/-- **`take`** moves what `g` has to `f`, and leaves `g` empty. -/
theorem Refines.take (h : Refines cfg own W V) (hfg : f ≠ g) (hf : own f = some none) (hg : own g ≠ none) :
    ∃ W₁ own', W.take f g = some W₁ ∧ Refines cfg own' W₁ (V.move f g) := by
  obtain ⟨hsound, hholds, hinvoked⟩ := h
  cases hown : own g with
  | none => exact absurd hown hg
  | some y =>
      have hmove : ∀ y', y'.map Owned.callable = y.map Owned.callable →
          (V.move f g).holds = fun u =>
            (Function.update (Function.update own f (some y')) g (some none) u).map (Option.map Owned.callable) := by
        intro y' hy'
        have hvg : V.holds g = some (y'.map Owned.callable) := by simp [hholds, hy', hown]
        have hset := holds_set (holds_set hholds f (some y')) g (some none)
        rw [Contents.move, hvg]
        exact hset
      cases y with
      | none =>
          obtain ⟨s, hfn⟩ := hsound.blank_of_empty hown
          have hblank := (hsound.blank (s := s) (f := f) (by simp [hf])).blank (s := s) (f := g)
            (by simp [Function.update_of_ne hfg.symm, hown])
          exact ⟨_, _, by simp [Functions.take, hfn, handOver], hblank, hmove none rfl, hinvoked⟩
      | some x =>
          have hlives := hsound.lives hown
          have hfn := (hsound.owner g x hown).1
          obtain ⟨⟨scheme, T⟩, id, c⟩ := x
          cases scheme with
          | inline =>
              have hnew := hsound.make (m := (.inline, T)) (c := c) hf
              have hold := hnew.gone (f := g) (x := ⟨(.inline, T), id, c⟩) (s := .holds .inline id)
                (by rw [Function.update_of_ne hfg.symm, hown])
              refine ⟨_, _, ?_, hold, hmove (some ⟨(.inline, T), W.count, c⟩) rfl, hinvoked⟩
              -- with a manager or without one, the callable is made anew in the buffer of `f`
              cases ht : cfg.triviallyCopyable T <;>
                simp [Functions.take, hfn, FunctionTraits.managerOf, ht, relocate, hlives] <;> rfl
          | heap =>
              have hover := hsound.transfer (s := .holds .heap id) hfg hf hown
              refine ⟨_, _, ?_, hover, hmove (some ⟨(.heap, T), id, c⟩) rfl, hinvoked⟩
              simp [Functions.take, hfn, FunctionTraits.managerOf, handOver]

/-- `emplace` replaces what the function has. -/
theorem Refines.emplace (h : Refines cfg own W V) (hf : own f ≠ none) (T : F) (c : C) :
    ∃ W₁ own', W.emplace cfg f T c = some W₁ ∧ Refines cfg own' W₁ (V.set f (some (some c))) := by
  obtain ⟨W₁, hdestroy, -, hinvoked, hsound⟩ := h.sound.destroy hf
  have hmake := (hsound .none).make (m := (if cfg.useHeap T then .heap else .inline, T)) (c := c)
    (Function.update_self ..)
  rw [Function.update_idem] at hmake
  have hover : ∀ m (b r : FunctionObject F), ((W₁.put f b).make m c).put f r = (W₁.make m c).put f r :=
    fun m b r => put_put (W₁.make m c) f b r
  rw [hover] at hmake
  have hholds := holds_set h.holds f
    (some (some ⟨(if cfg.useHeap T then .heap else .inline, T), W₁.count, c⟩))
  exact ⟨_, _, by rw [Functions.emplace, hdestroy]; rfl, hmake, hholds, h.invoked.trans hinvoked.symm⟩

/-- Nothing but `f` and its callable is touched by `destroy`. -/
theorem Refines.destroy (h : Refines cfg own W V) (hf : own f ≠ none) :
    ∃ W₁, W.destroy f = some W₁ ∧ W₁.function = W.function ∧
      ∀ s, Refines cfg (Function.update own f (some none)) (W₁.put f ⟨s, none, none⟩) (V.set f (some none)) := by
  obtain ⟨W₁, hdestroy, hfunction, hinvoked, hsound⟩ := h.sound.destroy hf
  exact ⟨W₁, hdestroy, hfunction, fun s =>
    ⟨hsound s, holds_set h.holds f (some none), h.invoked.trans hinvoked.symm⟩⟩

/-- **One operation.** What a program may ask for is done without touching an object whose life is over, and
the contents are those that it asked for. -/
theorem Refines.next (h : Refines cfg own W V) {act : FunctionAct N F C} (hasks : W.asks cfg act) :
    ∃ W₁ own', W.next cfg act = some W₁ ∧ Refines cfg own' W₁ (V.next act) := by
  have hnone : ∀ {f}, W.function f = none → ∀ x, own f ≠ some (some x) := by
    intro f hf x he
    cases (h.sound.function_eq_none.1 hf).symm.trans he
  have hsome : ∀ {f}, W.function f ≠ none → own f ≠ none := fun hf he => hf (h.sound.absent _ he)
  cases act with
  | construct f => exact ⟨_, _, rfl, h.blank (hnone hasks)⟩
  | constructFrom f T c =>
      obtain ⟨W₁, own', hemplace, href⟩ := (h.blank (s := .none) (hnone hasks.1)).emplace (f := f) (by simp) T c
      refine ⟨W₁, own', hemplace, ?_⟩
      simpa [Contents.next, Contents.set] using href
  | moveConstruct f g =>
      have hfg : f ≠ g := fun he => hasks.2 (he ▸ hasks.1)
      obtain ⟨W₁, own', htake, href⟩ := (h.blank (s := .none) (hnone hasks.1)).take hfg (Function.update_self ..)
        (by rw [Function.update_of_ne hfg.symm]; exact hsome hasks.2)
      refine ⟨W₁, own', htake, ?_⟩
      rwa [move_set hfg] at href
  | assign f g =>
      simp only [Functions.next, Contents.next]
      split
      · exact ⟨W, own, rfl, h⟩
      · next hfg =>
        obtain ⟨W₁, hdestroy, -, href⟩ := h.destroy (hsome hasks.1)
        obtain ⟨W₂, own', htake, href⟩ := (href .none).take hfg (Function.update_self ..)
          (by rw [Function.update_of_ne (Ne.symm hfg)]; exact hsome hasks.2)
        rw [take_put hfg] at htake
        rw [move_set hfg] at href
        exact ⟨W₂, own', by rw [hdestroy]; exact htake, href⟩
  | assignNull f | reset f =>
      obtain ⟨W₁, hdestroy, hfunction, href⟩ := h.destroy (hsome hasks)
      obtain ⟨fn, hfn⟩ := Option.ne_none_iff_exists'.1 hasks
      refine ⟨_, _, ?_, href fn.buffer⟩
      simp only [Functions.next, Functions.reset, hdestroy, Option.bind_some, hfunction, hfn, Option.map_some]
  | assignFrom f T c => exact h.emplace (hsome hasks.1) T c
  | call f =>
      obtain ⟨c, hv, hcall, href⟩ := h.call hasks
      refine ⟨_, own, hcall, ?_⟩
      rw [Contents.next, hv]
      exact href
  | destruct f =>
      obtain ⟨W₁, hdestroy, hfunction, href⟩ := h.destroy (hsome hasks)
      have herase := (href .none).sound.erase (Function.update_self ..)
      have hholds := holds_set h.holds f none
      simp only [put, Function.update_idem] at herase
      exact ⟨_, _, by rw [Functions.next, hdestroy]; rfl, herase, hholds, (href .none).invoked⟩

/-- **Ownership.**  Every sequence of operations that a program may ask for is done to its end, so that no callable
is invoked, moved or destroyed through a pointer to another type or once its life is over.  Every callable that was
stored is then the callable of exactly one function and has not ended, or has ended exactly once and, if it was on
the heap, has been freed exactly once.  What each function shows and what each call ran is what was last moved
there, and a function that is moved from is empty. -/
theorem callables_owned_once (cfg : FunctionTraits F) (acts : List (FunctionAct N F C))
    (hasks : Meets (next cfg) (asks cfg) boot acts) :
    ∃ W, run (next cfg) boot acts = some W ∧
      (∀ id o, W.object id = some o →
        o.ended = 0 ∧ o.freed = 0 ∧ (∃! f, W.Holds f id) ∨
          o.ended = 1 ∧ o.freed = if o.scheme = .heap then 1 else 0) ∧
      (∀ f, W.contents f = (acts.foldl Contents.next Contents.boot).holds f) ∧
      W.invoked = (acts.foldl Contents.next Contents.boot).invoked ∧
      ∀ f g act, act = .moveConstruct f g ∨ act = .assign f g ∧ f ≠ g → W.asks cfg act →
        ∃ W', W.next cfg act = some W' ∧ W'.contents g = some none := by
  obtain ⟨W, hrun, own, href⟩ := run_simulates (R := fun W V => ∃ own, Refines cfg own W V)
    (fun W V act h hok => by
      obtain ⟨own, h⟩ := h
      obtain ⟨W', own', hnext, h'⟩ := h.next hok
      exact ⟨W', hnext, own', h'⟩) ⟨_, refines_boot⟩ hasks
  refine ⟨W, hrun, fun id o ho => ?_, href.contents, href.invoked.symm, fun f g act hact hok => ?_⟩
  · rcases href.sound.once id o ho with ⟨hend, hfreed⟩ | hgone
    · exact Or.inl ⟨hend, hfreed, href.sound.holder ho hend⟩
    · exact Or.inr hgone
  · obtain ⟨W', own', hnext, href'⟩ := href.next hok
    refine ⟨W', hnext, ?_⟩
    rw [href'.contents]
    rcases hact with rfl | ⟨rfl, hfg⟩
    · exact Function.update_self ..
    · rw [Contents.next, if_neg hfg]
      exact Function.update_self ..

/-- Callables of 16 and 32 bytes fit, the first of them trivially copyable; one of 48 goes to the heap. -/
def sampleTraits : FunctionTraits (Fin 3) where
  size := fun T => 16 * (T + 1)
  align := fun _ => 8
  triviallyCopyable := (· = 0)
  inlineSize := 32
  storageAlign := 16
  policy := .canUseHeap

def sampleActs : List (FunctionAct (Fin 3) (Fin 3) ℕ) :=
  [.constructFrom 0 1 10, .moveConstruct 1 0, .assignFrom 0 2 20, .call 1, .assign 1 0, .call 1,
    .constructFrom 2 0 30, .assign 0 2, .assign 0 0, .call 0, .destruct 0, .destruct 1, .destruct 2]

/-- A callable of each kind is moved and called, and everything is gone at the end. -/
theorem callables_owned_once_sample :
    ∃ W, run (next sampleTraits) boot sampleActs = some W ∧ W.invoked = [(0, 30), (1, 20), (1, 10)] ∧
      ∀ f, W.contents f = none := by
  obtain ⟨W, hrun, -, hcontents, hinvoked, -⟩ :=
    callables_owned_once sampleTraits sampleActs (by decide +kernel)
  refine ⟨W, hrun, hinvoked.trans rfl, fun f => (hcontents f).trans ?_⟩
  revert f
  decide

end Cyros.Kernel.Functions
