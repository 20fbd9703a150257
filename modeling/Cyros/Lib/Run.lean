import Mathlib.Algebra.Ring.Nat
import Mathlib.Logic.Function.Basic
import Mathlib.Data.List.Basic

/-!
# Runs of a guarded transition function

A system is given by a function `next : σ → α → Option σ`: `next s a = some t` says that the action
`a` is enabled in `s` and leads to `t`.  A finite run is a list of actions, and `run next s as` is the
state it leads to, or `none` when one of its actions was not enabled where it was taken.  Every prefix
of a run is a run, so a statement about `run next s as = some t` for all `as` is a statement about
every state of every run.

`Meets next ok s as` says that each action of the run satisfies `ok` in the state it is taken in.  It
is how a result about *the runs that avoid a given step* is stated.
-/

namespace Cyros.Lib

/-! Runs are evaluated over a few cores and threads, whose numbers are literals of these types. -/

instance neZero_one : NeZero 1 := ⟨by decide⟩

instance neZero_two : NeZero 2 := ⟨by decide⟩

instance neZero_three : NeZero 3 := ⟨by decide⟩

instance neZero_four : NeZero 4 := ⟨by decide⟩

variable {σ α : Type*}

/-- The state a list of actions leads to, `none` when one of them is not enabled. -/
def run (next : σ → α → Option σ) : σ → List α → Option σ
  | s, [] => some s
  | s, a :: as => (next s a).bind fun t => run next t as

/-- Every action of the run satisfies `ok` in the state it is taken in. -/
def Meets (next : σ → α → Option σ) (ok : σ → α → Prop) : σ → List α → Prop
  | _, [] => True
  | s, a :: as => ok s a ∧ match next s a with
    | some t => Meets next ok t as
    | none => True

/-- `Meets` can be evaluated on a concrete run. -/
def Meets.decide (next : σ → α → Option σ) (ok : σ → α → Prop) [∀ s a, Decidable (ok s a)] :
    (s : σ) → (as : List α) → Decidable (Meets next ok s as)
  | _, [] => isTrue trivial
  | s, a :: as =>
      have : Decidable (match next s a with
          | some t => Meets next ok t as
          | none => True) :=
        match next s a with
        | some t => Meets.decide next ok t as
        | none => isTrue trivial
      inferInstanceAs (Decidable (ok s a ∧ _))

instance (next : σ → α → Option σ) (ok : σ → α → Prop) [∀ s a, Decidable (ok s a)] (s : σ)
    (as : List α) : Decidable (Meets next ok s as) :=
  Meets.decide next ok s as

variable {next : σ → α → Option σ} {ok : σ → α → Prop}

/-- A guarded step that is taken meets its guard. -/
theorem of_guard {c : Prop} [Decidable c] {s t : σ} (h : (if c then some s else none) = some t) : c ∧ s = t := by
  obtain ⟨hc, hst⟩ := Option.ite_none_right_eq_some.1 h
  exact ⟨hc, Option.some.inj hst⟩

@[simp] theorem run_nil (s : σ) : run next s [] = some s := rfl

theorem run_cons (s : σ) (a : α) (as : List α) :
    run next s (a :: as) = (next s a).bind fun t => run next t as := rfl

theorem run_cons_eq_some {s u : σ} {a : α} {as : List α} (h : run next s (a :: as) = some u) :
    ∃ t, next s a = some t ∧ run next t as = some u := by
  rw [run_cons, Option.bind_eq_some_iff] at h
  exact h

theorem run_append (s : σ) (as bs : List α) :
    run next s (as ++ bs) = (run next s as).bind fun t => run next t bs := by
  induction as generalizing s with
  | nil => rfl
  | cons a as ih =>
      rw [List.cons_append, run_cons, run_cons, Option.bind_assoc]
      congr 1
      funext t
      exact ih t

theorem run_append_eq_some {s u : σ} {as bs : List α} (h : run next s (as ++ bs) = some u) :
    ∃ t, run next s as = some t ∧ run next t bs = some u := by
  rw [run_append, Option.bind_eq_some_iff] at h
  exact h

theorem meets_append {s t : σ} {as bs : List α} (h : run next s as = some t) :
    Meets next ok s (as ++ bs) ↔ Meets next ok s as ∧ Meets next ok t bs := by
  induction as generalizing s with
  | nil =>
      rw [run_nil, Option.some.injEq] at h
      subst h
      simp [Meets]
  | cons a as ih =>
      obtain ⟨u, hu, hrun⟩ := run_cons_eq_some h
      simp only [List.cons_append, Meets, hu, ih hrun, and_assoc]

theorem Meets.of_true (next : σ → α → Option σ) (s : σ) (as : List α) :
    Meets next (fun _ _ => True) s as := by
  induction as generalizing s with
  | nil => trivial
  | cons a as ih =>
      refine ⟨trivial, ?_⟩
      cases next s a with
      | none => trivial
      | some t => exact ih t

/-- A condition on the actions alone joins one on the run. -/
theorem Meets.and_mem {P : α → Prop} {s : σ} {as : List α} (h : Meets next ok s as)
    (hP : ∀ a ∈ as, P a) : Meets next (fun s a => ok s a ∧ P a) s as := by
  induction as generalizing s with
  | nil => trivial
  | cons a as ih =>
      obtain ⟨hok, hrest⟩ := h
      refine ⟨⟨hok, hP a List.mem_cons_self⟩, ?_⟩
      cases hu : next s a with
      | none => trivial
      | some u =>
          rw [hu] at hrest
          exact ih hrest fun b hb => hP b (List.mem_cons_of_mem a hb)

/-- **The run rule.**  What every enabled action preserves, every run preserves. -/
theorem run_invariant {I : σ → Prop}
    (step : ∀ s a t, I s → next s a = some t → I t)
    {s t : σ} {as : List α} (hs : I s) (h : run next s as = some t) : I t := by
  induction as generalizing s with
  | nil =>
      rw [run_nil, Option.some.injEq] at h
      exact h ▸ hs
  | cons a as ih =>
      obtain ⟨u, hu, hrun⟩ := run_cons_eq_some h
      exact ih (step s a u hs hu) hrun

/-- The run rule for the runs whose actions all satisfy `ok` where they are taken. -/
theorem run_invariant_of_meets {I : σ → Prop}
    (step : ∀ s a t, I s → ok s a → next s a = some t → I t)
    {s t : σ} {as : List α} (hs : I s) (hok : Meets next ok s as) (h : run next s as = some t) :
    I t := by
  induction as generalizing s with
  | nil =>
      rw [run_nil, Option.some.injEq] at h
      exact h ▸ hs
  | cons a as ih =>
      obtain ⟨u, hu, hrun⟩ := run_cons_eq_some h
      obtain ⟨hok₁, hok₂⟩ := hok
      rw [hu] at hok₂
      exact ih (step s a u hs hok₁ hu) hok₂ hrun

/-- **The simulation rule.**  Where every action that satisfies `ok` is enabled and keeps the state in step with
an abstract one, so does every such run. -/
theorem run_simulates {τ : Type*} {R : σ → τ → Prop} {spec : τ → α → τ}
    (step : ∀ s v a, R s v → ok s a → ∃ t, next s a = some t ∧ R t (spec v a))
    {s : σ} {v : τ} {as : List α} (hs : R s v) (hok : Meets next ok s as) :
    ∃ t, run next s as = some t ∧ R t (as.foldl spec v) := by
  induction as generalizing s v with
  | nil => exact ⟨s, rfl, hs⟩
  | cons a as ih =>
      obtain ⟨hok₁, hok₂⟩ := hok
      obtain ⟨t, ht, hR⟩ := step s v a hs hok₁
      rw [ht] at hok₂
      obtain ⟨u, hu, hRu⟩ := ih hR hok₂
      refine ⟨u, ?_, hRu⟩
      rw [run_cons, ht]
      exact hu

end Cyros.Lib
