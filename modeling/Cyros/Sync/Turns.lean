import Cyros.Kernel.Untouched
import Cyros.Sync.WaitViews
import Mathlib.Data.Fintype.Sigma
import Mathlib.Data.List.Pairwise

/-!
# Taking turns

Who is given something first: a mutex, or a token.  A `Line` is a system whose waits are those of `Waits`, with
one of their queues, and `Turns` runs it together with a record of when each waiter first armed for its call
and of every gift.

* A gift is `Fair` if nobody who waits comes before the one it went to, by base priority and then by the
  time of its first arm; a gift to nobody is fair if nobody waits.
* `inLine` is what that takes: whoever waits is on the queue when something is given, or is less urgent than
  its head, and a waiter that arms again finds nobody of its priority there who armed after it did.
* `Lawful.grants_fair`: every run whose steps are in line gives fairly.

The time is a number of steps.  The first arm is what counts, so a waiter that disarms and arms again for the
same call keeps its time, though not its place on the queue.
-/

namespace Cyros.Sync

open Cyros.Lib Cyros.Kernel

variable {n : ℕ} {T : Fin n → Type} {Q σ α : Type}

/-- A system with a queue on which something is waited for. -/
structure Line {n : ℕ} (T : Fin n → Type) (Q σ α : Type) where
  next : σ → α → Option σ
  waits : σ → Waits T Q
  queue : Q
  /-- The thread that the step arms for the queue. -/
  arms : σ → α → Option (Σ c, T c)
  /-- The step gives something away. -/
  gives : σ → α → Bool
  /-- Who has it, by the states before and after the step. -/
  receiver : σ → σ → Option (Σ c, T c)
  /-- The thread has what it waits for, or has given up. -/
  finished : σ → (Σ c, T c) → Bool

/-- A gift: base priority and first arm of the one it went to, and of everybody who waited. -/
structure Grant {n : ℕ} (T : Fin n → Type) where
  chosen : Option (ℕ × ℕ)
  waiting : (Σ c, T c) → Option (ℕ × ℕ)

/-- Nobody who waited came before. -/
def Grant.Fair (g : Grant T) : Prop :=
  ∀ t p k, g.waiting t = some (p, k) → ∃ x y, g.chosen = some (x, y) ∧ (x < p ∨ x = p ∧ y ≤ k)

structure Turns {n : ℕ} (T : Fin n → Type) (σ : Type) where
  base : σ
  now : ℕ
  /-- When the thread first armed for its present call. -/
  since : (Σ c, T c) → Option ℕ
  grants : List (Grant T)

namespace Turns

section Model

variable (L : Line T Q σ α)

def boot (s : σ) : Turns T σ := ⟨s, 0, fun _ => none, []⟩

def nodes (S : Turns T σ) : List ((Σ c, T c) × Bool) := (L.waits S.base).queue L.queue

def priority (S : Turns T σ) (t : Σ c, T c) : ℕ := (L.waits S.base).basePriority t

/-- Base priority and first arm of a thread. -/
def turn (S : Turns T σ) (t : Σ c, T c) : Option (ℕ × ℕ) := (S.since t).map fun k => (priority L S t, k)

variable [DecidableEq Q]

/-- The turn of a thread that waits. -/
def waiting (S : Turns T σ) (t : Σ c, T c) : Option (ℕ × ℕ) :=
  if ((L.waits S.base).place t).source = some L.queue ∧ L.finished S.base t = false then turn L S t else none

/-- The first arm of a thread after a step that brought it to `p`. -/
def sinceAt (q : Q) (now : ℕ) (p : WaitPlace Q) (k : Option ℕ) : Option ℕ :=
  if p.source = some q then
    match k with
    | some k => some k
    | none => if p.armed = [] then none else some now
  else none

/-- **One step**, with the record it leaves. -/
def next (S : Turns T σ) (a : α) : Option (Turns T σ) :=
  (L.next S.base a).map fun s =>
    { base := s
      now := S.now + 1
      since := fun t => sinceAt L.queue S.now ((L.waits s).place t) (S.since t)
      grants :=
        if L.gives S.base a then ⟨(L.receiver S.base s).bind (turn L S), waiting L S⟩ :: S.grants
        else S.grants }

variable [∀ c, DecidableEq (T c)]

/-- The thread is on the queue, or is less urgent than its head. -/
def inPlace (S : Turns T σ) (t : Σ c, T c) : Bool :=
  onQueue L.queue (L.waits S.base) t || (nodes L S).head?.any fun x => priority L S x.1 < priority L S t

/-- **What keeps the turns**: when something is given, whoever waits is in place; and a waiter that arms
again finds nobody of its priority on the queue who first armed after it did. -/
def inLine (S : Turns T σ) (a : α) : Prop :=
  (L.gives S.base a = true → ∀ t, (waiting L S t).isSome = true → inPlace L S t = true) ∧
    ∀ t, L.arms S.base a = some t → ∀ k ∈ S.since t, ∀ x ∈ nodes L S,
      priority L S x.1 = priority L S t → ∀ j ∈ S.since x.1, j ≤ k

instance [∀ c, Fintype (T c)] (S : Turns T σ) (a : α) : Decidable (inLine L S a) :=
  inferInstanceAs (Decidable (_ ∧ _))

end Model

/-! ### The order of a queue -/

/-- The order of two nodes. -/
def Before (priority : (Σ c, T c) → ℕ) (since : (Σ c, T c) → Option ℕ) (x y : (Σ c, T c) × Bool) : Prop :=
  priority x.1 < priority y.1 ∨
    priority x.1 = priority y.1 ∧ ∀ i ∈ since x.1, ∀ j ∈ since y.1, i ≤ j

/-- A node goes behind all of its priority, and so may be the last of them to have armed. -/
theorem link_before {priority : (Σ c, T c) → ℕ} {since : (Σ c, T c) → Option ℕ}
    {node : (Σ c, T c) × Bool} {l : List ((Σ c, T c) × Bool)} (h : l.Pairwise (Before priority since))
    (hlast : ∀ x ∈ l, priority x.1 = priority node.1 → ∀ i ∈ since x.1, ∀ j ∈ since node.1, i ≤ j) :
    (Waits.link priority node l).Pairwise (Before priority since) := by
  induction l with
  | nil => exact List.pairwise_singleton _ _
  | cons first rest ih =>
      obtain ⟨hfirst, hrest⟩ := List.pairwise_cons.1 h
      unfold Waits.link
      split
      · next hlt =>
        refine List.pairwise_cons.2 ⟨fun x hx => ?_, h⟩
        rcases List.mem_cons.1 hx with rfl | hx
        · exact Or.inl hlt
        · rcases hfirst x hx with hp | hp
          · exact Or.inl (hlt.trans hp)
          · exact Or.inl (hp.1 ▸ hlt)
      · next hge =>
        refine List.pairwise_cons.2 ⟨fun x hx => ?_, ih hrest fun x hx => hlast x (List.mem_cons_of_mem _ hx)⟩
        rcases Waits.mem_link.1 hx with rfl | hx
        · rcases Nat.lt_or_ge (priority first.1) (priority x.1) with hp | hp
          · exact Or.inl hp
          · have heq : priority first.1 = priority x.1 := by omega
            exact Or.inr ⟨heq, hlast first List.mem_cons_self heq⟩
        · exact hfirst x hx

/-- The thread that a step of the waits arms. -/
def armOf : WaitAct T Q → Option (Σ c, T c)
  | .pass t .arm => some t
  | _ => none

theorem eq_of_armOf {act : WaitAct T Q} {t : Σ c, T c} (h : armOf act = some t) : act = .pass t .arm := by
  unfold armOf at h
  split at h
  · cases h
    rfl
  · cases h

variable [∀ c, DecidableEq (T c)] [DecidableEq Q]

/-- **What a step of the waits does to a queue** that is nobody's cancel signal: it takes nodes off, or is
the arm of a thread that waits on it. -/
theorem queue_step [∀ c, Fintype (T c)] {V V' : Waits T Q} {w : Q} (hcancel : ∀ t, (V.place t).cancel ≠ some w)
    {act : WaitAct T Q} (h : V.next act = some V') :
    (V'.queue w).Sublist (V.queue w) ∨ ∃ t cancel, armOf act = some t ∧ V.place t = .arming w cancel ∧
      V'.queue w = Waits.link V.basePriority (t, false) (V.queue w) := by
  have herase : ∀ (x : (Σ c, T c) × Bool) (q : Q),
      (Function.update V.queue q ((V.queue q).erase x) w).Sublist (V.queue w) := by
    intro x q
    by_cases hq : w = q
    · subst hq
      rw [Function.update_self]
      exact List.erase_sublist
    · rw [Function.update_of_ne hq]
  cases act with
  | core c act =>
      rw [(Waits.next_core h).2]
      exact Or.inl (List.Sublist.refl _)
  | call c t policy =>
      rw [(Waits.next_call h).2]
      exact Or.inl (List.Sublist.refl _)
  | wake q kind =>
      obtain ⟨-, nodes, hsub, hqueue⟩ := Waits.next_wake h
      rw [hqueue]
      by_cases hq : w = q
      · subst hq
        rw [Function.update_self]
        exact Or.inl hsub
      · rw [Function.update_of_ne hq]
        exact Or.inl (List.Sublist.refl _)
  | pass t act =>
      have hmove := Waits.next_pass_move h
      have hc := hcancel t
      generalize hp : V.place t = p at hmove hc
      generalize V'.place t = p' at hmove
      generalize V'.queue = queue' at hmove
      cases hmove with
      | arm w' =>
          by_cases hq : w = w'
          · subst hq
            exact Or.inr ⟨t, none, rfl, hp, Function.update_self ..⟩
          · rw [Function.update_of_ne hq]
            exact Or.inl (List.Sublist.refl _)
      | armFirst w' c =>
          by_cases hq : w = w'
          · subst hq
            exact Or.inr ⟨t, some c, rfl, hp, Function.update_self ..⟩
          · rw [Function.update_of_ne hq]
            exact Or.inl (List.Sublist.refl _)
      | armCancel w' c =>
          have hq : w ≠ c := fun he => hc (by simp [WaitPlace.cancel, he])
          rw [Function.update_of_ne hq]
          exact Or.inl (List.Sublist.refl _)
      | disarm | disarmFirst | disarmCancel => exact Or.inl (herase _ _)
      | startFirst | startAgain | pollEnds | pollFails | settle | settleAfter | commit | finish =>
          exact Or.inl (List.Sublist.refl _)

/-! ### What keeps the order -/

/-- **What a line owes**, from an invariant `I` of its system: its waits move by their own steps, the arm of
a thread shows, and what is given goes to the first on the queue. -/
structure Lawful [∀ c, Fintype (T c)] (L : Line T Q σ α) (I : σ → Prop) : Prop where
  keeps : ∀ s a s', I s → L.next s a = some s' → I s'
  nodes : ∀ s, I s → (L.waits s).Nodes
  cancel : ∀ s, I s → ∀ t, ((L.waits s).place t).cancel ≠ some L.queue
  step : ∀ s a s', I s → L.next s a = some s' → L.waits s' = L.waits s ∨
    ∃ act, (L.waits s).next act = some (L.waits s') ∧ ∀ t cancel, armOf act = some t →
      (L.waits s).place t = .arming L.queue cancel → L.arms s a = some t
  first : ∀ s a s', I s → L.next s a = some s' → L.gives s a = true →
    L.receiver s s' = ((L.waits s).queue L.queue).head?.map Prod.fst

/-- The record of the first arms, and of what was given. -/
structure Inv (L : Line T Q σ α) (S : Turns T σ) : Prop where
  stamped : ∀ x ∈ nodes L S, ∃ k, S.since x.1 = some k
  past : ∀ t, ∀ k ∈ S.since t, k < S.now
  order : (nodes L S).Pairwise (Before (priority L S) S.since)
  fair : ∀ g ∈ S.grants, g.Fair

variable {L : Line T Q σ α} {S S' : Turns T σ} {I : σ → Prop} [∀ c, Fintype (T c)]

omit [∀ c, DecidableEq (T c)] [∀ c, Fintype (T c)] in
/-- Who has a node on the queue has armed. -/
theorem sinceAt_of_armed {q : Q} {now : ℕ} {p : WaitPlace Q} (h : (q, false) ∈ p.armed) (k : Option ℕ) :
    sinceAt q now p k = some (k.getD now) := by
  obtain ⟨-, hsource, -⟩ := WaitPlace.nodeGone_of_armed h true
  cases k with
  | some k => exact if_pos hsource
  | none =>
      show (if p.source = some q then if p.armed = [] then none else some now else none) = some now
      rw [if_pos hsource, if_neg (List.ne_nil_of_mem h)]

omit [∀ c, DecidableEq (T c)] [∀ c, Fintype (T c)] in
theorem sinceAt_lt {q : Q} {now : ℕ} {p : WaitPlace Q} {k : Option ℕ} (hk : ∀ i ∈ k, i < now) :
    ∀ i ∈ sinceAt q now p k, i < now + 1 := by
  intro i hi
  unfold sinceAt at hi
  split at hi
  · cases k with
    | some k =>
        have hlt := hk k rfl
        cases hi
        omega
    | none =>
        simp only [Option.mem_def] at hi
        split at hi <;> cases hi
        omega
  · cases hi

omit [∀ c, Fintype (T c)] in
/-- A gift in line is fair: the head of the queue comes before all who are in place. -/
theorem Inv.fair_head (hi : Inv L S)
    (hplace : ∀ t, (waiting L S t).isSome = true → inPlace L S t = true) :
    Grant.Fair ⟨((nodes L S).head?.map Prod.fst).bind (turn L S), waiting L S⟩ := by
  intro t p k ht
  have hin := hplace t (by rw [show waiting L S t = some (p, k) from ht]; rfl)
  have hturn : turn L S t = some (p, k) := by
    have hw : waiting L S t = some (p, k) := ht
    unfold waiting at hw
    split at hw
    · exact hw
    · cases hw
  obtain ⟨j, hj, hpk⟩ := Option.map_eq_some_iff.mp hturn
  obtain ⟨rfl, rfl⟩ := Prod.mk.inj hpk
  cases hq : nodes L S with
  | nil =>
      have hqueue : (L.waits S.base).queue L.queue = [] := hq
      simp [inPlace, onQueue, hq, hqueue] at hin
  | cons first rest =>
      obtain ⟨i, hfirst⟩ := hi.stamped first (by rw [hq]; exact List.mem_cons_self)
      refine ⟨priority L S first.1, i, ?_, ?_⟩
      · show turn L S first.1 = _
        rw [turn, hfirst]
        rfl
      · have horder := hi.order
        rw [hq] at horder
        rcases Bool.or_eq_true_iff.1 hin with hon | hurgent
        · have hmem : (t, false) ∈ first :: rest := by
            rw [← hq]
            exact List.contains_iff_mem.1 hon
          rcases List.mem_cons.1 hmem with rfl | hmem
          · rw [hj] at hfirst
            cases hfirst
            exact Or.inr ⟨rfl, le_rfl⟩
          · rcases (List.pairwise_cons.1 horder).1 _ hmem with hlt | ⟨heq, hle⟩
            · exact Or.inl hlt
            · exact Or.inr ⟨heq, hle i hfirst j hj⟩
        · rw [hq] at hurgent
          exact Or.inl (of_decide_eq_true hurgent)

/-- **One step in line keeps the order and gives fairly.** -/
theorem Lawful.next (hl : Lawful L I) (hI : I S.base) (hi : Inv L S) {a : α} (hline : inLine L S a)
    (h : Turns.next L S a = some S') : I S'.base ∧ Inv L S' := by
  obtain ⟨s, hs, rfl⟩ := Option.map_eq_some_iff.mp h
  have hI' := hl.keeps _ _ _ hI hs
  -- whoever has a node after the step waits, so its first arm is kept or is now
  have harmed : ∀ x ∈ (L.waits s).queue L.queue,
      sinceAt L.queue S.now ((L.waits s).place x.1) (S.since x.1) = some ((S.since x.1).getD S.now) := by
    intro x hx
    have hslot := slot_of_mem (hl.nodes s hI') (hl.cancel s hI') hx
    have hmem := (hl.nodes s hI').armed _ _ hx
    rw [hslot] at hmem
    exact sinceAt_of_armed hmem _
  have hold : ∀ x ∈ Turns.nodes L S, x ∈ (L.waits s).queue L.queue → ∀ i,
      i ∈ sinceAt L.queue S.now ((L.waits s).place x.1) (S.since x.1) → i ∈ S.since x.1 := by
    intro x hx hx' i hmem
    obtain ⟨k, hk⟩ := hi.stamped x hx
    rw [harmed x hx', hk] at hmem
    rw [hk]
    exact hmem
  have hbase : (L.waits s).basePriority = (L.waits S.base).basePriority := by
    rcases hl.step _ _ _ hI hs with hsame | ⟨act, hact, -⟩
    · rw [hsame]
    · exact Waits.basePriority_next hact
  -- nodes that stay keep their order
  have hstay : ∀ l : List ((Σ c, T c) × Bool), l.Sublist (Turns.nodes L S) →
      (∀ x ∈ l, x ∈ (L.waits s).queue L.queue) → l.Pairwise (Before (L.waits S.base).basePriority fun t =>
        sinceAt L.queue S.now ((L.waits s).place t) (S.since t)) := by
    intro l hsub hin
    refine (hi.order.sublist hsub).imp_of_mem fun {x y} hx hy hbefore => ?_
    rcases hbefore with hlt | ⟨heq, hle⟩
    · exact Or.inl hlt
    · refine Or.inr ⟨heq, fun i hix j hjy => ?_⟩
      exact hle i (hold x (hsub.subset hx) (hin x hx) i hix) j (hold y (hsub.subset hy) (hin y hy) j hjy)
  refine ⟨hI', ⟨fun x hx => ⟨_, harmed x hx⟩, fun t => sinceAt_lt (hi.past t), ?_, ?_⟩⟩
  · show ((L.waits s).queue L.queue).Pairwise (Before (L.waits s).basePriority _)
    rw [hbase]
    rcases hl.step _ _ _ hI hs with hsame | ⟨act, hact, harms⟩
    · exact hstay _ (by rw [hsame]; exact List.Sublist.refl _) fun x hx => hx
    · rcases queue_step (hl.cancel _ hI) hact with hsub | ⟨t, cancel, hpass, hp, hlink⟩
      · exact hstay _ hsub fun x hx => hx
      · have hin : ∀ x ∈ Turns.nodes L S, x ∈ (L.waits s).queue L.queue := by
          intro x hx
          rw [hlink]
          exact Waits.mem_link.2 (Or.inr hx)
        have ht : (t, false) ∈ (L.waits s).queue L.queue := by
          rw [hlink]
          exact Waits.mem_link.2 (Or.inl rfl)
        rw [hlink]
        refine link_before (hstay _ (List.Sublist.refl _) hin) fun x hx hp' i hix j hjt => ?_
        have hi' := hold x hx (hin x hx) i hix
        have hj : (S.since t).getD S.now = j := Option.some.inj ((harmed _ ht).symm.trans hjt)
        cases hk : S.since t with
        | none =>
            rw [hk] at hj
            exact hj ▸ Nat.le_of_lt (hi.past _ i hi')
        | some k =>
            rw [hk] at hj
            exact hj ▸ hline.2 t (harms t cancel hpass hp) k hk x hx hp' i hi'
  · intro g hg
    replace hg : g ∈ if L.gives S.base a then
        ⟨(L.receiver S.base s).bind (turn L S), waiting L S⟩ :: S.grants else S.grants := hg
    split at hg
    · next hgives =>
      rcases List.mem_cons.1 hg with rfl | hg
      · rw [hl.first _ _ _ hI hs hgives]
        exact hi.fair_head (hline.1 hgives)
      · exact hi.fair g hg
    · exact hi.fair g hg

/-- **Every run whose steps are in line gives fairly**, from a state in which nobody waits. -/
theorem Lawful.grants_fair (hl : Lawful L I) {s : σ} (hI : I s) (hq : (L.waits s).queue L.queue = [])
    {as : List α} (hok : Meets (Turns.next L) (inLine L) (boot s) as)
    (h : run (Turns.next L) (boot s) as = some S) : ∀ g ∈ S.grants, g.Fair := by
  have hboot : Inv L (boot s) := by
    have hnodes : Turns.nodes L (boot s) = [] := hq
    refine ⟨fun x hx => ?_, nofun, ?_, nofun⟩
    · rw [hnodes] at hx
      cases hx
    · rw [hnodes]
      exact List.Pairwise.nil
  have hinv := run_invariant_of_meets (I := fun S : Turns T σ => I S.base ∧ Inv L S)
    (fun S a S' hS hline hstep => hl.next hS.1 hS.2 hline hstep) ⟨hI, hboot⟩ hok h
  exact hinv.2.fair

end Turns

end Cyros.Sync
