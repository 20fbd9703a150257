import Cyros.Kernel.Intake

/-!
# How a core takes its intake in

Every switch begins with `if (intake_pending()) drain_intake();`, on the handler's road in `reschedule` and in
`decide` for a thread's or an interrupt's decision.  The look, the detaching exchange and the drain are steps of
their own, between which other cores post (`Service`).

* `Posted` says what the posters' steps do to the head and to the posters who still have an IPI to send
  (`Ringing`): whoever makes the intake non-empty is one of them.
-/

namespace Cyros.Kernel

open Cyros.Lib

/-- Who takes the intake in: `reschedule`, or the decision of a thread or an interrupt. -/
inductive ServiceRoad where
  | handler
  | decision
  deriving DecidableEq, Repr

/-- Where the core stands with its intake. -/
inductive Service where
  | none
  /-- Before `intake_pending`. -/
  | looking (road : ServiceRoad)
  /-- Before the exchange of `drain_intake`. -/
  | detaching (road : ServiceRoad)
  /-- In the drain, or past it. -/
  | draining (road : ServiceRoad)
  deriving DecidableEq, Repr

/-- The core has yet to look at its intake, or to detach what it saw. -/
def Service.ahead : Service → Bool
  | .looking _ | .detaching _ => true
  | .none | .draining _ => false

def Service.decides : Service → Bool
  | .looking .decision | .detaching .decision | .draining .decision => true
  | _ => false

namespace IntakeAct

variable {N R P : Type}

/-- The steps of a poster up to its link. -/
def posts : IntakeAct N R P → Bool
  | .fetchOr .. | .mark _ | .exchange _ | .link _ => true
  | .ring _ | .detach | .drainStep => false

end IntakeAct

namespace Intake

variable {N R P : Type} [DecidableEq N] [DecidableEq R] [DecidableEq P]

/-- The next step of the owner. -/
def serve (s : Intake N R P) : Service → Option (Intake N R P × Service)
  | .none => none
  | .looking road => some (s, if s.head = none then .draining road else .detaching road)
  | .detaching road => (s.step .detach).map fun s' => (s', .draining road)
  | .draining road => (s.step .drainStep).map fun s' => (s', .draining road)

variable {s s' : Intake N R P} {p : P}

def rings : PostPlace N → Bool
  | .exchanged _ none | .linked true => true
  | _ => false

omit [DecidableEq N] [DecidableEq R] [DecidableEq P] in
theorem ringing_iff : s.Ringing p ↔ rings (s.posters p) = true := by
  unfold Ringing
  cases s.posters p with
  | exchanged t prev => cases prev <;> simp [rings]
  | linked first => cases first <;> simp [rings]
  | idle | claimed | marked => simp [rings]

instance (s : Intake N R P) (p : P) : Decidable (s.Ringing p) := decidable_of_iff _ ringing_iff.symm

/-- What the steps of the posters keep. -/
structure Posted (s s' : Intake N R P) : Prop where
  ringing : ∀ p, s.Ringing p → s'.Ringing p
  linked : ∀ p first, s.posters p = .linked first → s'.posters p = .linked first
  /-- Whoever makes the intake non-empty has an IPI to send. -/
  first : s.head = none → s'.head ≠ none → ∃ p, s'.Ringing p ∧ ∀ first, s'.posters p ≠ .linked first
  head : s.head ≠ none → s'.head ≠ none

omit [DecidableEq N] [DecidableEq R] in
theorem posted_of_update {v : PostPlace N} (hposters : s'.posters = Function.update s.posters p v)
    (hnot : ∀ first, s.posters p ≠ .linked first)
    (hring : s.Ringing p → (∃ t, v = .exchanged t none) ∨ v = .linked true)
    (hhead : s.head ≠ none → s'.head ≠ none)
    (hfirst : s.head = none → s'.head ≠ none → ∃ t, v = .exchanged t none) : Posted s s' where
  ringing := fun q hq => by
    unfold Ringing at *
    rw [hposters]
    by_cases hqp : q = p
    · subst hqp
      rw [Function.update_self]
      exact hring hq
    · rwa [Function.update_of_ne hqp]
  linked := fun q first hq => by
    rw [hposters, Function.update_of_ne]
    · exact hq
    · rintro rfl
      exact hnot first hq
  first := fun hnone hsome => by
    obtain ⟨t, rfl⟩ := hfirst hnone hsome
    exact ⟨p, Or.inl ⟨t, by simp [hposters]⟩, by simp [hposters]⟩
  head := hhead

theorem posted_of_step {act : IntakeAct N R P} (hact : act.posts = true) (h : s.step act = some s') :
    Posted s s' := by
  cases act with
  | fetchOr p t r =>
      obtain ⟨hp, rfl⟩ := of_guard h
      exact posted_of_update rfl (by simp [hp]) (fun hr => by simp [Ringing, hp] at hr) id
        fun hnone hsome => absurd hnone hsome
  | mark p =>
      simp only [step] at h
      split at h <;> cases h
      next t hp =>
      exact posted_of_update rfl (by simp [hp]) (fun hr => by simp [Ringing, hp] at hr) id
        fun hnone hsome => absurd hnone hsome
  | exchange p =>
      simp only [step] at h
      split at h <;> cases h
      next t hp =>
      exact posted_of_update rfl (by simp [hp]) (fun hr => by simp [Ringing, hp] at hr) (by simp)
        fun hnone _ => ⟨t, by rw [hnone]⟩
  | link p =>
      simp only [step] at h
      split at h <;> cases h
      next t prev hp =>
      refine posted_of_update rfl (by simp [hp]) (fun hr => Or.inr ?_) id fun hnone hsome => absurd hnone hsome
      have hprev : prev = none := by simpa [Ringing, hp] using hr
      rw [hprev, Option.isNone_none]
  | ring | detach | drainStep => cases hact

/-- The end of a post: what it rings for is not undone. -/
theorem ring_spec (h : s.step (.ring p) = some s') :
    ∃ first, s.posters p = .linked first ∧ s'.head = s.head ∧
      s'.posters = Function.update s.posters p .idle := by
  simp only [step] at h
  split at h <;> cases h
  next first hp =>
  exact ⟨first, hp, rfl, rfl⟩

omit [DecidableEq N] [DecidableEq R] in
theorem ringing_of_ring {q : P} (hposters : s'.posters = Function.update s.posters p .idle) (hq : s.Ringing q)
    (hne : q ≠ p) : s'.Ringing q := by
  unfold Ringing at *
  rwa [hposters, Function.update_of_ne hne]

/-- **The owner's step**: the posters are left alone, and the intake is empty once it is detached. -/
theorem serve_spec {service service' : Service} (h : s.serve service = some (s', service')) :
    s'.posters = s.posters ∧ service'.decides = service.decides ∧
      (s'.head = none ∨ service'.ahead = true ∧ s'.head = s.head ∨
        service.ahead = false ∧ service'.ahead = false ∧ s'.head = s.head) := by
  cases service with
  | none => cases h
  | looking road =>
      cases h
      refine ⟨rfl, ?_, ?_⟩
      · cases road <;> split <;> rfl
      · by_cases hhead : s.head = none
        · exact Or.inl hhead
        · rw [if_neg hhead]
          exact Or.inr (Or.inl ⟨rfl, rfl⟩)
  | detaching road =>
      obtain ⟨s₁, hstep, heq⟩ := Option.map_eq_some_iff.mp h
      cases heq
      simp only [step] at hstep
      split at hstep
      · split at hstep
        · next hnone =>
          cases hstep
          exact ⟨rfl, by cases road <;> rfl, Or.inl hnone⟩
        · cases hstep
          exact ⟨rfl, by cases road <;> rfl, Or.inl rfl⟩
      · cases hstep
  | draining road =>
      obtain ⟨s₁, hstep, heq⟩ := Option.map_eq_some_iff.mp h
      cases heq
      obtain ⟨hposters, hhead, -⟩ := drainStep_keeps hstep
      exact ⟨hposters, rfl, Or.inr (Or.inr ⟨rfl, rfl, hhead⟩)⟩

end Intake

end Cyros.Kernel
