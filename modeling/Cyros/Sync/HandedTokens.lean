import Cyros.Sync.Handoff
import Mathlib.Algebra.BigOperators.Group.Finset.Basic
import Mathlib.Algebra.BigOperators.Group.List.Basic
import Mathlib.Algebra.Ring.Nat
import Mathlib.Data.Fintype.Sigma

/-!
# Where the tokens of a handoff semaphore are

* Every token is counted, with a release, or with a thread, until an acquire returns with it (`conserved`).
* What a thread has is what its record and its node say: a hand-over took the node, a poll took a counted
  token, and of both it gives one back (`Told`).
* While anybody is on the queue whose poll found nothing, every counted token will be taken back by a release
  that is under way (`covered`): a hand-over counts only where it finds nobody, and a release that counts looks
  again.
-/

namespace Cyros.Sync

open Cyros.Lib Cyros.Kernel

/-- Sums that differ in one place. -/
theorem sum_add_of_eq_off {ι : Type} [Fintype ι] [DecidableEq ι] {f g : ι → ℕ} {i : ι}
    (h : ∀ j, j ≠ i → g j = f j) : ∑ j, g j + f i = ∑ j, f j + g i := by
  have hrest : ∑ j ∈ Finset.univ.erase i, g j = ∑ j ∈ Finset.univ.erase i, f j :=
    Finset.sum_congr rfl fun j hj => h j (Finset.ne_of_mem_erase hj)
  rw [← Finset.sum_erase_add _ g (Finset.mem_univ i), ← Finset.sum_erase_add _ f (Finset.mem_univ i), hrest]
  omega

namespace Handoff

variable {n : ℕ} {T : Fin n → Type} {Q : Type}
variable [DecidableEq Q] [∀ c, DecidableEq (T c)] [∀ c, Fintype (T c)]

def tokensOf (l : List (HandoffRelease T)) : ℕ := (l.map fun r => r.place.tokens).sum

def reclaimsOf (l : List (HandoffRelease T)) : ℕ := (l.map fun r => r.place.reclaims).sum

section Invariant

variable (w : Q) (total : ℕ) (S : Handoff T Q)

/-- The tokens in the hands of releases. -/
def inRelease : ℕ := tokensOf S.releasing

/-- The counted tokens that releases will take back. -/
def reclaims : ℕ := reclaimsOf S.releasing

def starved (t : Σ c, T c) : Prop := Semaphore.starvedAt w (onQueue w S.waits t) (S.waits.place t) = true

structure Inv : Prop where
  waits : S.waits.Inv
  nodes : S.waits.Nodes
  told : ∀ t, Told w (S.view w t)
  conserved : total + S.released = S.counter + S.succeeded + ∑ t, S.hand t + S.inRelease
  covered : ∀ t, S.starved w t → S.counter ≤ S.reclaims

end Invariant

variable {w : Q} {total : ℕ} {S S' : Handoff T Q}

theorem inv_boot (idle : ∀ c, T c) (basePriority : ∀ c, T c → Level) (threads : ∀ c, List (T c)) :
    Inv w total (boot idle basePriority threads total : Handoff T Q) where
  waits := Waits.inv_boot idle basePriority threads
  nodes := Waits.nodes_boot idle basePriority threads
  told := fun t => ⟨nofun, nofun, nofun, fun _ => ⟨rfl, rfl, nofun⟩⟩
  conserved := by simp [boot, inRelease, tokensOf]
  covered := fun t h => by simp [starved, boot, Waits.boot, Semaphore.starvedAt] at h

omit [∀ c, Fintype (T c)] in
theorem ne_nil_of_starved {t : Σ c, T c} (h : S.starved w t) : S.waits.queue w ≠ [] := by
  have hq : onQueue w S.waits t = true := by
    unfold starved at h
    cases hp : S.waits.place t <;> simp_all [Semaphore.starvedAt]
  exact List.ne_nil_of_mem (List.contains_iff_mem.1 hq)

omit [DecidableEq Q] in
/-- Before its disarm a thread has what its node and its poll say. -/
theorem Told.nothing {x : View Q} (h : Told w x) (hin : x.place.source = some w)
    (hnot : x.place.isPolled = false) : x.after = .nothing ∧ x.marked = false ∧
      x.tookCounted = x.place.satisfied ∧ x.hand = x.handed.toNat + x.tookCounted.toNat := by
  have hstage := (h.stage hin).2
  cases hafter : x.after with
  | nothing =>
      rw [hafter] at hstage
      exact ⟨rfl, hstage⟩
  | _ =>
      rw [hafter] at hstage
      have hp := hstage.1
      rw [hnot] at hp
      cases hp

theorem Inv.cancel (hi : Inv w total S) (t : Σ c, T c) : (S.waits.place t).cancel ≠ some w :=
  (hi.told t).cancel

/-! ### Steps that move one thread -/

section OneThread

variable {t : Σ c, T c} (hsame : ∀ u, u ≠ t → S'.view w u = S.view w u)

include hsame

theorem Inv.told_of_same (hi : Inv w total S) (ht : Told w (S'.view w t)) (u : Σ c, T c) :
    Told w (S'.view w u) := by
  by_cases hu : u = t
  · rw [hu]
    exact ht
  · rw [hsame u hu]
    exact hi.told u

omit [DecidableEq Q] in
theorem sum_hand : ∑ u, S'.hand u + S.hand t = ∑ u, S.hand u + S'.hand t :=
  sum_add_of_eq_off fun u hu => congrArg View.hand (hsame u hu)

omit [∀ c, Fintype (T c)] in
theorem starved_of_same (ht : S'.starved w t → S.starved w t) {u : Σ c, T c} (hu : S'.starved w u) :
    S.starved w u := by
  by_cases hut : u = t
  · rw [hut] at hu ⊢
    exact ht hu
  · have hplace : S'.waits.place u = S.waits.place u := congrArg View.place (hsame u hut)
    have hqueued : onQueue w S'.waits u = onQueue w S.waits u := congrArg View.queued (hsame u hut)
    unfold starved at hu ⊢
    rwa [hplace, hqueued] at hu

/-- **A step that moves one thread**, and counts nothing for anybody who waits. -/
theorem Inv.move (hi : Inv w total S) (hw : S'.waits.Inv) (hn : S'.waits.Nodes) (ht : Told w (S'.view w t))
    (hcons : total + S'.released + S.hand t =
      S'.counter + S'.succeeded + ∑ u, S.hand u + S'.hand t + S'.inRelease)
    (hstarved : S'.starved w t → S.starved w t) (hcounter : S'.counter ≤ S.counter)
    (hreclaims : S.reclaims ≤ S'.reclaims) : Inv w total S' := by
  have hsum := sum_hand hsame
  refine ⟨hw, hn, hi.told_of_same hsame ht, by omega, fun u hu => ?_⟩
  have hcov := hi.covered u (starved_of_same hsame hstarved hu)
  omega

end OneThread

/-! ### Steps of the waits -/

theorem Inv.waitAct (hi : Inv w total S) {act : WaitAct T Q} {v : Waits T Q}
    (hleave : leaves w S.waits act = true) (h : S.waits.next act = some v) :
    Inv w total { S with waits := v } := by
  have htold : ∀ t, Told w (({ S with waits := v } : Handoff T Q).view w t) ∧
      (({ S with waits := v } : Handoff T Q).starved w t → S.starved w t) := by
    intro t
    have ht := hi.told t
    rcases next_leaves hleave h t with ⟨hplace, hqueued⟩ | ⟨a, -, hallow, hmove⟩
    · have hview : ({ S with waits := v } : Handoff T Q).view w t = S.view w t := by
        simp only [view, hplace, hqueued]
      rw [hview]
      refine ⟨ht, fun hs => ?_⟩
      unfold starved at hs ⊢
      rwa [hplace, hqueued] at hs
    · obtain ⟨hsource, hcancel⟩ := Semaphore.passMove_source hmove hallow ht.cancel
      by_cases hin : (S.waits.place t).source = some w
      · obtain ⟨hgone, hsat, hpolled, hstarved⟩ := passMove_keeps hmove hallow ht.cancel hin
        obtain ⟨hanswer, hstage⟩ := ht.stage hin
        refine ⟨⟨hcancel, fun _ => (ht.gone hin).trans hgone.symm, fun _ => ⟨hanswer, ?_⟩,
          fun hne => absurd (hsource.2 hin) hne⟩, hstarved⟩
        show StageOk _ (S.after t)
        cases hafter : S.after t with
        | nothing =>
            rw [show (S.view w t).after = .nothing from hafter] at hstage
            exact ⟨hstage.1, hstage.2.1.trans hsat.symm, hstage.2.2⟩
        | _ =>
            rw [show (S.view w t).after = _ from hafter] at hstage
            have hplace : v.place t = S.waits.place t := hpolled hstage.1
            simpa only [StageOk, view, hplace] using hstage
      · have hout : (v.place t).source ≠ some w := fun he => hin (hsource.1 he)
        refine ⟨⟨hcancel, fun he => absurd he hout, fun he => absurd he hout, fun _ => ht.outside hin⟩, ?_⟩
        intro hs
        have hs : Semaphore.starvedAt w _ (v.place t) = true := hs
        rw [Semaphore.starvedAt_of_ne hout] at hs
        cases hs
  exact ⟨hi.waits.next h, hi.nodes.next h, fun t => (htold t).1, hi.conserved,
    fun t ht => hi.covered t ((htold t).2 ht)⟩

/-! ### Releases -/

section Sums

variable {l : List (HandoffRelease T)} {i : ℕ} {r : HandoffRelease T}

omit [∀ c, DecidableEq (T c)] [∀ c, Fintype (T c)]

theorem tokensOf_eraseIdx (h : l[i]? = some r) :
    tokensOf l = r.place.tokens + tokensOf (l.eraseIdx i) := by
  obtain ⟨hi, rfl⟩ := List.getElem?_eq_some_iff.1 h
  exact ((List.getElem_cons_eraseIdx_perm hi).map fun r => r.place.tokens).sum_eq.symm

theorem reclaimsOf_eraseIdx (h : l[i]? = some r) :
    reclaimsOf l = r.place.reclaims + reclaimsOf (l.eraseIdx i) := by
  obtain ⟨hi, rfl⟩ := List.getElem?_eq_some_iff.1 h
  exact ((List.getElem_cons_eraseIdx_perm hi).map fun r => r.place.reclaims).sum_eq.symm

end Sums

omit [DecidableEq Q] [∀ c, DecidableEq (T c)] [∀ c, Fintype (T c)] in
theorem tokensOf_setRelease (S : Handoff T Q) (i : ℕ) (giver : Option (Σ c, T c)) (place : HandingOver) :
    tokensOf (S.setRelease i giver place).releasing = place.tokens + tokensOf (S.releasing.eraseIdx i) :=
  List.sum_cons

omit [DecidableEq Q] [∀ c, DecidableEq (T c)] [∀ c, Fintype (T c)] in
theorem reclaimsOf_setRelease (S : Handoff T Q) (i : ℕ) (giver : Option (Σ c, T c)) (place : HandingOver) :
    reclaimsOf (S.setRelease i giver place).releasing = place.reclaims + reclaimsOf (S.releasing.eraseIdx i) :=
  List.sum_cons

/-- The releases and the counter change, and no thread. -/
theorem Inv.release (hi : Inv w total S) (total' : ℕ) (releasing : List (HandoffRelease T)) (counter : ℕ)
    (htokens : total' + S.counter + S.inRelease = total + counter + tokensOf releasing)
    (hcov : S.waits.queue w ≠ [] →
      counter = 0 ∨ counter + S.reclaims ≤ S.counter + reclaimsOf releasing) :
    Inv w total' { S with releasing := releasing, counter := counter } := by
  have hcons := hi.conserved
  refine ⟨hi.waits, hi.nodes, hi.told, ?_, fun t ht => ?_⟩
  · show total' + S.released = counter + S.succeeded + ∑ t, S.hand t + tokensOf releasing
    omega
  · have ht : S.starved w t := ht
    show counter ≤ reclaimsOf releasing
    have hle := hi.covered t ht
    rcases hcov (ne_nil_of_starved ht) with hzero | hcov
    · omega
    · omega

/-- **The hand-over of a token** that was with a release. -/
theorem Inv.handOver (hi : Inv w total S) (h : S.handOver w = some S') :
    Inv w (total + 1) S' ∧ S'.releasing = S.releasing := by
  have hcons := hi.conserved
  unfold Handoff.handOver at h
  split at h
  · next hq =>
    cases h
    refine ⟨⟨hi.waits, hi.nodes, hi.told, ?_, fun t ht => ?_⟩, rfl⟩
    · show total + 1 + S.released = S.counter + 1 + S.succeeded + ∑ t, S.hand t + S.inRelease
      omega
    · have ht : S.starved w t := ht
      exact absurd hq (ne_nil_of_starved ht)
  · next first rest hq =>
    obtain ⟨S₁, hstep, rfl⟩ := Option.map_eq_some_iff.mp h
    obtain ⟨v, hv, rfl⟩ := Option.map_eq_some_iff.mp hstep
    obtain ⟨hplace, harmed, hqueued, hgone, hother⟩ := wake_one hi.nodes hi.cancel hq hv
    obtain ⟨hnode, hsource, hnot⟩ := WaitPlace.nodeGone_of_armed harmed true
    obtain ⟨hnode', -, -⟩ := WaitPlace.nodeGone_of_armed harmed false
    refine ⟨?_, rfl⟩
    have hsame : ∀ u, u ≠ first.1 → ({ ({ S with waits := v } : Handoff T Q).gain first.1 with
        handed := Function.update S.handed first.1 true } : Handoff T Q).view w u = S.view w u := by
      intro u hu
      simp only [view, gain, hplace, hother u hu, Function.update_of_ne hu]
    have htold := hi.told first.1
    obtain ⟨hanswer, -⟩ := htold.stage hsource
    have hhanded : S.handed first.1 = false := by
      have hg := htold.gone hsource
      rw [show (S.view w first.1).queued = true from hqueued] at hg
      exact hg.trans hnode
    obtain ⟨hafter, hmarked, htook, hhand⟩ := htold.nothing hsource hnot
    have hafter : S.after first.1 = .nothing := hafter
    have hsum := sum_hand hsame
    refine ⟨hi.waits.next hv, hi.nodes.next hv, hi.told_of_same hsame ⟨?_, fun _ => ?_, fun _ => ⟨hanswer, ?_⟩,
      fun hne => ?_⟩, ?_, fun u hu => ?_⟩
    · simp only [view, gain, hplace]
      exact htold.cancel
    · simp only [view, gain, hplace, hgone, Function.update_self]
      exact hnode'.symm
    · simp only [view, gain, hplace, Function.update_self, hafter, StageOk]
      refine ⟨hmarked, htook, ?_⟩
      have hhand : S.hand first.1 = (S.handed first.1).toNat + (S.tookCounted first.1).toNat := hhand
      rw [hhand, hhanded, Bool.toNat_true, Bool.toNat_false]
      omega
    · simp only [view, gain, hplace] at hne
      exact absurd hsource hne
    · have hgain : Function.update S.hand first.1 (S.hand first.1 + 1) first.1 = S.hand first.1 + 1 :=
        Function.update_self ..
      simp only [gain, inRelease] at hsum hcons ⊢
      omega
    · refine hi.covered u (starved_of_same hsame (fun hs => ?_) hu)
      have hs : Semaphore.starvedAt w (onQueue w v first.1) (v.place first.1) = true := hs
      rw [hgone] at hs
      cases hp : v.place first.1 <;> simp [hp, Semaphore.starvedAt] at hs

/-- **One step of a release keeps the invariant.** -/
theorem Inv.proceed (hi : Inv w total S) {i : ℕ} (h : S.proceed w i = some S') : Inv w total S' := by
  unfold Handoff.proceed at h
  split at h
  · cases h
  · next place giver hr =>
    have htokens : S.inRelease = place.tokens + _ := tokensOf_eraseIdx hr
    have hreclaims : S.reclaims = place.reclaims + _ := reclaimsOf_eraseIdx hr
    have hdone : place.tokens = 0 → (S.waits.queue w ≠ [] → S.counter = 0 ∨ place.reclaims = 0) →
        Inv w total { S with releasing := S.releasing.eraseIdx i } := by
      intro hnone hcov
      refine hi.release total _ _ (by omega) fun hq => ?_
      rcases hcov hq with hzero | hzero
      · exact Or.inl hzero
      · exact Or.inr (by omega)
    -- tokens go between the release and the counter
    have hmoves : ∀ {place' : HandingOver} {counter : ℕ},
        place'.tokens + counter = place.tokens + S.counter →
        counter + place.reclaims ≤ S.counter + place'.reclaims →
        Inv w total { S.setRelease i giver place' with counter := counter } := by
      intro place' counter hsame hcov
      have hheld := tokensOf_setRelease S i giver place'
      have hback := reclaimsOf_setRelease S i giver place'
      exact hi.release total _ _ (by omega) fun _ => Or.inr (by omega)
    -- a token goes from the release to a thread or to the counter
    have hhands : ∀ {S₁ : Handoff T Q} {place' : HandingOver}, S.handOver w = some S₁ →
        place.tokens = place'.tokens + 1 → place.reclaims = place'.reclaims →
        Inv w total (S₁.setRelease i giver place') := by
      intro S₁ place' hover hone hsame
      obtain ⟨hi₁, hreleasing⟩ := hi.handOver hover
      have hr₁ : S₁.releasing[i]? = some ⟨place, giver⟩ := by rw [hreleasing]; exact hr
      have htokens₁ : S₁.inRelease = place.tokens + _ := tokensOf_eraseIdx hr₁
      have hreclaims₁ : S₁.reclaims = place.reclaims + _ := reclaimsOf_eraseIdx hr₁
      have hheld := tokensOf_setRelease S₁ i giver place'
      have hback := reclaimsOf_setRelease S₁ i giver place'
      exact hi₁.release total (S₁.setRelease i giver place').releasing S₁.counter (by omega)
        fun _ => Or.inr (by omega)
    cases place with
    | looking tokens =>
        cases h
        split
        · exact hmoves rfl le_rfl
        · exact hmoves rfl le_rfl
    | handing left =>
        cases left with
        | zero =>
            cases h
            exact hdone rfl fun _ => Or.inr rfl
        | succ left =>
            obtain ⟨S₁, hover, rfl⟩ := Option.map_eq_some_iff.mp h
            exact hhands hover rfl rfl
    | counting tokens =>
        cases h
        refine hmoves ?_ le_rfl
        show 0 + (S.counter + tokens) = tokens + S.counter
        omega
    | counted tokens =>
        cases h
        split
        · next hq => exact hdone rfl fun hne => absurd hq hne
        · exact hmoves rfl le_rfl
    | reclaiming left =>
        cases left with
        | zero =>
            cases h
            exact hdone rfl fun _ => Or.inr rfl
        | succ left =>
            cases h
            split
            · next hpos =>
              refine hmoves ?_ ?_
              · show 1 + (S.counter - 1) = 0 + S.counter
                omega
              · show S.counter - 1 + (left + 1) ≤ S.counter + left
                omega
            · next hzero => exact hdone rfl fun _ => Or.inl (by omega)
    | reclaimed left =>
        obtain ⟨S₁, hover, rfl⟩ := Option.map_eq_some_iff.mp h
        exact hhands hover rfl rfl

/-! ### The waits for a token -/

section Waiting

variable {v : Waits T Q} {t : Σ c, T c} {cancel : Option Q}

/-- The view of another thread after a step of `t` in its pass. -/
theorem view_pass {act : PassAct (T t.1) Q} (h : S.waits.next (.pass t act) = some v) {u : Σ c, T c}
    (hu : u ≠ t) : ({ S with waits := v } : Handoff T Q).view w u = S.view w u := by
  obtain ⟨hplace, hqueued⟩ := onQueue_pass (w := w) h hu
  simp only [view, hplace, hqueued]

/-- **An armed poll that finds a counted token.** -/
theorem Inv.pollTakes (hi : Inv w total S) (hp : S.waits.place t = .polling w cancel)
    (hpos : 0 < S.counter) (hv : S.waits.next (.pass t (.poll true false)) = some v) :
    Inv w total { S.gain t with
      counter := S.counter - 1
      tookCounted := Function.update S.tookCounted t true
      waits := v } := by
  have htold := hi.told t
  have hplace : (S.view w t).place = .polling w cancel := hp
  obtain ⟨hafter, hmarked, htook, hhand⟩ := htold.nothing (by rw [hplace]; rfl) (by rw [hplace]; rfl)
  obtain ⟨hanswer, -⟩ := htold.stage (by rw [hplace]; rfl)
  have hgone := htold.gone (by rw [hplace]; rfl)
  have hcancel := htold.cancel
  obtain ⟨hqueue, hplace' | hplace'⟩ := place_poll hp hv
  · have hcons := hi.conserved
    have hqueued : onQueue w v t = onQueue w S.waits t := by rw [onQueue, onQueue, hqueue]
    refine hi.move (t := t) (fun u hu => ?_) (hi.waits.next hv) (hi.nodes.next hv)
      ⟨?_, fun _ => ?_, fun _ => ⟨hanswer, ?_⟩, fun hne => ?_⟩ ?_ ?_ ?_ le_rfl
    · rw [← view_pass hv hu]
      simp only [view, gain, Function.update_of_ne hu]
    · simp_all [view, gain, WaitPlace.cancel]
    · simp_all [view, gain, WaitPlace.nodeGone]
    · simp_all [view, gain, StageOk, WaitPlace.satisfied]
    · simp [view, gain, hplace', WaitPlace.source] at hne
    · simp only [gain, Function.update_self, inRelease] at hcons ⊢
      omega
    · simp [starved, hplace', Semaphore.starvedAt]
    · exact Nat.sub_le _ _
  · cases hplace'.1

/-- **An armed poll that finds none.** -/
theorem Inv.pollFinds (hi : Inv w total S) (hp : S.waits.place t = .polling w cancel)
    (hzero : S.counter = 0) {raised : Bool}
    (hv : S.waits.next (.pass t (.poll false raised)) = some v) : Inv w total { S with waits := v } := by
  have htold := hi.told t
  have hplace : (S.view w t).place = .polling w cancel := hp
  obtain ⟨hafter, hmarked, htook, hhand⟩ := htold.nothing (by rw [hplace]; rfl) (by rw [hplace]; rfl)
  obtain ⟨hanswer, -⟩ := htold.stage (by rw [hplace]; rfl)
  have hgone := htold.gone (by rw [hplace]; rfl)
  have hcancel := htold.cancel
  obtain ⟨hqueue, hplace'⟩ := place_poll hp hv
  have hqueued : onQueue w v t = onQueue w S.waits t := by rw [onQueue, onQueue, hqueue]
  have ht : Told w (({ S with waits := v } : Handoff T Q).view w t) := by
    rcases hplace' with hplace' | ⟨-, hplace'⟩
    · refine ⟨?_, fun _ => ?_, fun _ => ⟨hanswer, ?_⟩, fun hne => absurd ?_ hne⟩ <;>
        simp_all [view, WaitPlace.cancel, WaitPlace.source, WaitPlace.nodeGone, StageOk, WaitPlace.satisfied]
    · refine ⟨?_, fun _ => ?_, fun _ => ⟨hanswer, ?_⟩, fun hne => absurd ?_ hne⟩ <;>
        simp_all [view, WaitPlace.cancel, WaitPlace.source, WaitPlace.nodeGone, StageOk, WaitPlace.satisfied]
  refine ⟨hi.waits.next hv, hi.nodes.next hv, hi.told_of_same (fun u hu => view_pass hv hu) ht, hi.conserved,
    fun u _ => ?_⟩
  show S.counter ≤ _
  omega

variable {satisfied chosen : Bool}

/-- **A step after the disarm**, that leaves the waits alone. -/
theorem Inv.polled (hi : Inv w total S) (hp : S.waits.place t = .polled w cancel satisfied chosen)
    (hw : S'.waits = S.waits) (hsame : ∀ u, u ≠ t → S'.view w u = S.view w u)
    (hhanded : S'.handed t = S.handed t) (hanswer : S'.answer t = S.answer t)
    (hstage : StageOk (S'.view w t) (S'.after t))
    (hcons : total + S'.released + S.hand t =
      S'.counter + S'.succeeded + ∑ u, S.hand u + S'.hand t + S'.inRelease)
    (hcounter : S'.counter ≤ S.counter) (hreclaims : S.reclaims ≤ S'.reclaims) : Inv w total S' := by
  have hsource : (S.waits.place t).source = some w := by rw [hp]; rfl
  have htold := hi.told t
  refine hi.move hsame (by rw [hw]; exact hi.waits) (by rw [hw]; exact hi.nodes)
    ⟨?_, fun _ => ?_, fun _ => ⟨?_, hstage⟩, fun hne => ?_⟩ hcons ?_ hcounter hreclaims
  · show (S'.waits.place t).cancel ≠ some w
    rw [hw]
    exact htold.cancel
  · show S'.handed t = (S'.waits.place t).nodeGone (onQueue w S'.waits t)
    rw [hw, hhanded]
    exact htold.gone hsource
  · show S'.answer t = none
    rw [hanswer]
    exact (htold.stage hsource).1
  · have hne : (S'.waits.place t).source ≠ some w := hne
    rw [hw] at hne
    exact absurd hsource hne
  · unfold starved
    rw [hw]
    exact id

/-- What was said of the thread where it stands. -/
theorem Inv.stageAt (hi : Inv w total S) (hp : S.waits.place t = .polled w cancel satisfied chosen)
    {a : AfterDisarm} (ha : S.after t = a) : S.handed t = chosen ∧ StageOk (S.view w t) a := by
  have hsource : (S.view w t).place.source = some w := by
    show (S.waits.place t).source = some w
    rw [hp]
    rfl
  have hgone := (hi.told t).gone hsource
  have hstage := ((hi.told t).stage hsource).2
  rw [show (S.view w t).after = a from ha] at hstage
  refine ⟨?_, hstage⟩
  have hgone : S.handed t = (S.waits.place t).nodeGone (onQueue w S.waits t) := hgone
  rw [hgone, hp]
  rfl

theorem Inv.mark (hi : Inv w total S) (hp : S.waits.place t = .polled w cancel satisfied chosen)
    (ha : S.after t = .nothing) :
    Inv w total ({ S with marked := Function.update S.marked t (S.marked t || chosen) }.setAfter t .marked) := by
  obtain ⟨hhanded, hmarked, htook, hhand⟩ := hi.stageAt hp ha
  have hcons := hi.conserved
  refine hi.polled hp rfl (fun u hu => ?_) rfl rfl ?_ ?_ le_rfl le_rfl
  · simp only [view, setAfter, Function.update_of_ne hu]
  · simp_all [view, setAfter, StageOk, WaitPlace.isPolled]
  · simp only [setAfter, inRelease] at hcons ⊢
    omega

/-- A step after the disarm that only goes on. -/
theorem Inv.goesOn (hi : Inv w total S) (hp : S.waits.place t = .polled w cancel satisfied chosen)
    {a : AfterDisarm} (hstage : StageOk (S.view w t) a) : Inv w total (S.setAfter t a) := by
  have hcons := hi.conserved
  refine hi.polled hp rfl (fun u hu => ?_) rfl rfl ?_ ?_ le_rfl le_rfl
  · simp only [view, setAfter, Function.update_of_ne hu]
  · simp only [setAfter, Function.update_self]
    cases a <;> exact hstage
  · simp only [setAfter, inRelease] at hcons ⊢
    omega

/-- **The poll after the disarm takes a counted token.** -/
theorem Inv.unarmedTakes (hi : Inv w total S) (hp : S.waits.place t = .polled w cancel false chosen)
    (ha : S.after t = .marked) (hm : S.marked t = false) (hpos : 0 < S.counter) :
    Inv w total (setAfter { S.gain t with
      counter := S.counter - 1, tookCounted := Function.update S.tookCounted t true } t (.ended true)) := by
  obtain ⟨hhanded, hpolled, hmarked, htook, hhand⟩ := hi.stageAt hp ha
  have hcons := hi.conserved
  refine hi.polled hp rfl (fun u hu => ?_) rfl rfl ?_ ?_ (Nat.sub_le _ _) le_rfl
  · simp only [view, setAfter, gain, Function.update_of_ne hu]
  · simp_all [view, setAfter, gain, StageOk, WaitPlace.isPolled, WaitPlace.satisfied]
  · simp only [setAfter, gain, Function.update_self, inRelease] at hcons ⊢
    omega

/-- **A thread with two tokens gives one back.** -/
theorem Inv.givesBack (hi : Inv w total S) (hp : S.waits.place t = .polled w cancel satisfied chosen)
    {taken : Bool} (ha : S.after t = .ended taken) (hboth : S.tookCounted t = true ∧ S.marked t = true) :
    Inv w total { S.setAfter t (.settled taken) with
      hand := Function.update S.hand t (S.hand t - 1)
      releasing := ⟨.looking 1, some t⟩ :: S.releasing } := by
  obtain ⟨hhanded, hpolled, hmarked, hhand, htaken⟩ := hi.stageAt hp ha
  have hcons := hi.conserved
  have htwo : S.hand t = 2 := by
    have hhand : S.hand t = (S.handed t).toNat + (S.tookCounted t).toNat := hhand
    have hm : S.handed t = true := hmarked.symm.trans hboth.2
    rw [hhand, hm, hboth.1]
    rfl
  have htokens : tokensOf (⟨.looking 1, some t⟩ :: S.releasing) = 1 + S.inRelease := List.sum_cons
  have hreclaims : reclaimsOf (⟨.looking 1, some t⟩ :: S.releasing) = 0 + S.reclaims := List.sum_cons
  refine hi.polled hp rfl (fun u hu => ?_) rfl rfl ?_ ?_ le_rfl ?_
  · simp only [view, setAfter, Function.update_of_ne hu]
  · simp_all [view, setAfter, StageOk, WaitPlace.isPolled]
  · show total + S.released + S.hand t = S.counter + S.succeeded + ∑ u, S.hand u +
      Function.update S.hand t (S.hand t - 1) t + tokensOf (⟨.looking 1, some t⟩ :: S.releasing)
    rw [Function.update_self, htokens]
    omega
  · show S.reclaims ≤ reclaimsOf (⟨.looking 1, some t⟩ :: S.releasing)
    omega

theorem Inv.again (hi : Inv w total S) (hp : S.waits.place t = .polled w cancel false chosen)
    (ha : S.after t = .failed) (hv : S.waits.next (.pass t (.start w cancel)) = some v) :
    Inv w total (setAfter { S with waits := v } t .nothing) := by
  obtain ⟨hhanded, hpolled, hmarked, htook, hnot, hhand, -⟩ := hi.stageAt hp ha
  have hcancel := hi.cancel t
  have hsource : (S.waits.place t).source = some w := by rw [hp]; rfl
  obtain ⟨hanswer, -⟩ := (hi.told t).stage hsource
  obtain ⟨-, hplace⟩ := place_start hv
  have hcons := hi.conserved
  refine hi.move (t := t) (fun u hu => ?_) (hi.waits.next hv) (hi.nodes.next hv)
    ⟨?_, fun _ => ?_, fun _ => ⟨hanswer, ?_⟩, fun hne => ?_⟩ ?_ ?_ le_rfl le_rfl
  · rw [← view_pass hv hu]
    simp only [view, setAfter, Function.update_of_ne hu]
  · simp_all [view, setAfter, WaitPlace.cancel]
  · simp_all [view, setAfter, WaitPlace.nodeGone]
  · simp_all [view, setAfter, StageOk, WaitPlace.satisfied]
  · simp [view, setAfter, hplace, WaitPlace.source] at hne
  · simp only [setAfter, inRelease] at hcons ⊢
    omega
  · simp [starved, setAfter, hplace, Semaphore.starvedAt]

/-- **The call returns**, with the token that the thread has. -/
theorem Inv.reply (hi : Inv w total S) (hp : S.waits.place t = .polled w cancel satisfied chosen)
    {taken : Bool} (ha : S.after t = .settled taken) (hv : S.waits.next (.pass t .finish) = some v) :
    Inv w total { ({ S with waits := v } : Handoff T Q).setAfter t .nothing with
      answer := Function.update S.answer t (some taken)
      hand := Function.update S.hand t (S.hand t - taken.toNat)
      succeeded := S.succeeded + taken.toNat } := by
  obtain ⟨-, -, hhand, hfalse⟩ := hi.stageAt hp ha
  have hhand : S.hand t = taken.toNat := hhand
  obtain ⟨-, hplace⟩ := place_finish hv
  have hcons := hi.conserved
  refine hi.move (t := t) (fun u hu => ?_) (hi.waits.next hv) (hi.nodes.next hv)
    ⟨?_, fun hin => ?_, fun hin => ?_, fun _ => ⟨?_, ?_, fun hanswer => ?_⟩⟩ ?_ ?_ le_rfl le_rfl
  · rw [← view_pass hv hu]
    simp only [view, setAfter, Function.update_of_ne hu]
  · simp [view, setAfter, hplace, WaitPlace.cancel]
  · simp [view, setAfter, hplace, WaitPlace.source] at hin
  · simp [view, setAfter, hplace, WaitPlace.source] at hin
  · simp [view, setAfter]
  · simp [view, setAfter, hhand]
  · simp only [view, setAfter, Function.update_self, Option.some.injEq] at hanswer
    exact hfalse hanswer
  · simp only [setAfter, Function.update_self, inRelease] at hcons ⊢
    omega
  · simp [starved, setAfter, hplace, Semaphore.starvedAt]

theorem Inv.wait (hi : Inv w total S) (hp : S.waits.place t = .outside) (hcancel : cancel ≠ some w)
    (hv : S.waits.next (.pass t (.start w cancel)) = some v) :
    Inv w total { S with
      waits := v
      marked := Function.update S.marked t false
      tookCounted := Function.update S.tookCounted t false
      handed := Function.update S.handed t false
      answer := Function.update S.answer t none } := by
  obtain ⟨hafter, hhand, -⟩ := (hi.told t).outside (by simp [view, hp, WaitPlace.source])
  have hafter : S.after t = .nothing := hafter
  have hhand : S.hand t = 0 := hhand
  obtain ⟨-, hplace⟩ := place_start hv
  have hcons := hi.conserved
  refine hi.move (t := t) (fun u hu => ?_) (hi.waits.next hv) (hi.nodes.next hv)
    ⟨?_, fun _ => ?_, fun _ => ⟨?_, ?_⟩, fun hne => ?_⟩ ?_ ?_ le_rfl le_rfl
  · rw [← view_pass hv hu]
    simp only [view, Function.update_of_ne hu]
  · simpa [view, hplace, WaitPlace.cancel] using hcancel
  · simp [view, hplace, WaitPlace.nodeGone]
  · simp [view]
  · simp [view, hafter, StageOk, hplace, WaitPlace.satisfied, hhand]
  · simp [view, hplace, WaitPlace.source] at hne
  · simp only [inRelease] at hcons ⊢
    omega
  · simp [starved, hplace, Semaphore.starvedAt]

theorem Inv.tryAcquire (hi : Inv w total S) (hp : S.waits.place t = .outside) :
    Inv w total { S with
      counter := S.counter - 1
      handed := Function.update S.handed t false
      answer := Function.update S.answer t (some (decide (0 < S.counter)))
      succeeded := S.succeeded + (decide (0 < S.counter)).toNat } := by
  obtain ⟨hafter, hhand, -⟩ := (hi.told t).outside (by simp [view, hp, WaitPlace.source])
  have hcons := hi.conserved
  refine hi.move (t := t) (fun u hu => ?_) hi.waits hi.nodes
    ⟨hi.cancel t, fun hin => ?_, fun hin => ?_, fun _ => ⟨hafter, hhand, fun _ => ?_⟩⟩ ?_ id (Nat.sub_le _ _)
    le_rfl
  · simp only [view, Function.update_of_ne hu]
  · simp [view, hp, WaitPlace.source] at hin
  · simp [view, hp, WaitPlace.source] at hin
  · simp [view]
  · simp only [inRelease] at hcons ⊢
    by_cases hpos : 0 < S.counter
    · simp only [hpos, decide_true, Bool.toNat_true]
      omega
    · simp only [hpos, decide_false, Bool.toNat_false]
      omega

/-- A thread whose wait has ended stands past its last disarm. -/
theorem Inv.place_of_ended (hi : Inv w total S) {taken : Bool}
    (h : S.after t = .ended taken ∨ S.after t = .settled taken) :
    ∃ cancel satisfied chosen, S.waits.place t = .polled w cancel satisfied chosen := by
  have htold := hi.told t
  have hsource : (S.waits.place t).source = some w := by
    by_contra hne
    have hafter : S.after t = .nothing := (htold.outside hne).1
    rcases h with h | h <;> cases hafter.symm.trans h
  have hstage := (htold.stage hsource).2
  have hpolled : (S.waits.place t).isPolled = true := by
    rcases h with h | h <;> rw [show (S.view w t).after = _ from h] at hstage <;> exact hstage.1
  cases hp : S.waits.place t with
  | polled w' cancel satisfied chosen =>
      rw [hp] at hsource
      obtain rfl : w' = w := Option.some.inj hsource
      exact ⟨cancel, satisfied, chosen, rfl⟩
  | _ =>
      rw [hp] at hpolled
      cases hpolled

end Waiting

/-! ### Runs -/

/-- **One step keeps the invariant.** -/
theorem Inv.next (hi : Inv w total S) {act : HandoffAct T Q} (h : S.next w act = some S') :
    Inv w total S' := by
  have hcons := hi.conserved
  cases effect_of_next h with
  | waits hleave hv => exact hi.waitAct hleave hv
  | @release tokens =>
      have htokens : tokensOf (⟨.looking tokens, none⟩ :: S.releasing) = tokens + S.inRelease := List.sum_cons
      have hreclaims : reclaimsOf (⟨.looking tokens, none⟩ :: S.releasing) = 0 + S.reclaims := List.sum_cons
      refine ⟨hi.waits, hi.nodes, hi.told, ?_, fun t ht => ?_⟩
      · show total + (S.released + tokens) = S.counter + S.succeeded + ∑ t, S.hand t +
          tokensOf (⟨.looking tokens, none⟩ :: S.releasing)
        omega
      · have hcov := hi.covered t ht
        show S.counter ≤ reclaimsOf (⟨.looking tokens, none⟩ :: S.releasing)
        omega
  | proceed h => exact hi.proceed h
  | isrTakes hpos =>
      refine ⟨hi.waits, hi.nodes, hi.told, ?_, fun t ht => ?_⟩
      · show total + S.released = S.counter - 1 + (S.succeeded + 1) + ∑ t, S.hand t + S.inRelease
        omega
      · exact (Nat.sub_le _ _).trans (hi.covered t ht)
  | isrFails => exact hi
  | tryAcquire hp => exact hi.tryAcquire hp
  | wait hp hcancel hv => exact hi.wait hp hcancel hv
  | @pollMarked t _ cancel _ hp hm =>
      -- the record is told only after the disarm
      have hplace : (S.view w t).place = .polling w cancel := hp
      cases hm.symm.trans ((hi.told t).nothing (by rw [hplace]; rfl) (by rw [hplace]; rfl)).2.1
  | pollTakes hp hpos hv => exact hi.pollTakes hp hpos hv
  | pollFinds hp hzero hv => exact hi.pollFinds hp hzero hv
  | mark hp ha => exact hi.mark hp ha
  | finish hp ha | unarmedMarked hp ha | unarmedFails hp ha =>
      obtain ⟨hhanded, hpolled, hmarked, htook, hhand⟩ := hi.stageAt hp ha
      exact hi.goesOn hp (by simp_all [view, StageOk, WaitPlace.satisfied])
  | unarmedTakes hp ha hm hpos => exact hi.unarmedTakes hp ha hm hpos
  | again hp ha hv => exact hi.again hp ha hv
  | giveUp hp ha =>
      obtain ⟨hhanded, hpolled, hmarked, htook, hnot, hhand, -⟩ := hi.stageAt hp ha
      exact hi.goesOn hp (by simp_all [view, StageOk])
  | givesBack ha hboth =>
      obtain ⟨cancel, satisfied, chosen, hp⟩ := hi.place_of_ended (Or.inl ha)
      exact hi.givesBack hp ha hboth
  | @settle t taken ha hone =>
      obtain ⟨cancel, satisfied, chosen, hp⟩ := hi.place_of_ended (Or.inl ha)
      obtain ⟨hhanded, hpolled, hmarked, hhand, htaken⟩ := hi.stageAt hp ha
      refine hi.goesOn hp ?_
      cases hh : S.handed t <;> cases ht : S.tookCounted t <;> simp_all [view, StageOk]
  | reply ha hv =>
      obtain ⟨cancel, satisfied, chosen, hp⟩ := hi.place_of_ended (Or.inr ha)
      exact hi.reply hp ha hv

/-- The thread is parked on the semaphore. -/
def Parked (w : Q) (S : Handoff T Q) (t : Σ c, T c) : Prop :=
  (S.waits.cores t.1).sched.state t.2 = .blocked ∧ ∃ cancel, S.waits.place t = .disarming w cancel false

/-- **No operation is in progress**: no release is under way, and whoever waits for a token is parked. -/
structure Quiet (w : Q) (S : Handoff T Q) : Prop where
  releases : S.releasing = []
  acquires : ∀ t, (S.waits.place t).source = some w → S.Parked w t

/-- **Tokens are conserved, and none is counted beside a waiter.**  In every state of every run: the tokens
there were and callers released are in the counter, with acquires that have returned, with releases under way,
or with threads that a hand-over or a poll gave them; a thread outside its wait has none left, so a call that
returns true returns with exactly one and a call that returns false with none; a call that returned false was
handed none; and where no operation is in progress, a counted token means that nobody waits. -/
theorem handoff_conserved (w : Q) (idle : ∀ c, T c) (basePriority : ∀ c, T c → Level)
    (threads : ∀ c, List (T c)) (initial : ℕ) (acts : List (HandoffAct T Q))
    (hrun : run (next w) (boot idle basePriority threads initial) acts = some S) :
    initial + S.released = S.counter + S.succeeded + ∑ t, S.hand t + S.inRelease ∧
      (∀ t, (S.waits.place t).source ≠ some w → S.hand t = 0) ∧
      (∀ t, S.answer t = some false → S.handed t = false) ∧
      (S.Quiet w → 0 < S.counter → S.waits.queue w = []) := by
  have hi : Inv w initial S := run_invariant (I := Inv w initial) (fun _ _ _ hi h => hi.next h)
    (inv_boot idle basePriority threads) hrun
  refine ⟨hi.conserved, fun t hout => ((hi.told t).outside hout).2.1, fun t hfalse => ?_, fun hq hpos => ?_⟩
  · by_cases hs : (S.waits.place t).source = some w
    · have hanswer : S.answer t = none := ((hi.told t).stage hs).1
      rw [hanswer] at hfalse
      cases hfalse
    · exact ((hi.told t).outside hs).2.2 hfalse
  · by_contra hne
    obtain ⟨x, rest, hx⟩ := List.exists_cons_of_ne_nil hne
    have hmem : x ∈ S.waits.queue w := by rw [hx]; exact List.mem_cons_self
    have hslot := slot_of_mem hi.nodes hi.cancel hmem
    have harmed := hi.nodes.armed w x hmem
    rw [hslot] at harmed
    obtain ⟨-, hsource, -⟩ := WaitPlace.nodeGone_of_armed harmed true
    obtain ⟨-, cancel, hp⟩ := hq.acquires x.1 hsource
    have hqueued : onQueue w S.waits x.1 = true := by
      rw [onQueue, List.contains_eq_mem, ← hslot]
      exact decide_eq_true hmem
    have hcov := hi.covered x.1 (by simp [starved, hp, hqueued, Semaphore.starvedAt])
    rw [reclaims, hq.releases] at hcov
    have hcov : S.counter ≤ 0 := hcov
    omega

/-- One core with thread `1` and a token: the thread takes it; a release counts two more and looks again just
as the thread has armed, so the thread takes one of them and is handed the other, and gives it back. -/
def handedTwo : List (HandoffAct (fun _ : Fin 1 => Fin 2) Unit) :=
  [.tryAcquire ⟨0, 1⟩, .release 2, .proceed 0, .proceed 0, .wait ⟨0, 1⟩ none, .waits (.pass ⟨0, 1⟩ .arm),
    .proceed 0, .poll ⟨0, 1⟩ false, .proceed 0, .proceed 0, .waits (.pass ⟨0, 1⟩ .settle),
    .waits (.pass ⟨0, 1⟩ .disarm), .mark ⟨0, 1⟩, .finish ⟨0, 1⟩, .settle ⟨0, 1⟩, .proceed 0, .proceed 0,
    .proceed 0, .reply ⟨0, 1⟩, .proceed 0, .proceed 0, .proceed 0]

theorem handoff_conserved_handedTwo :
    ∃ S : Handoff (fun _ : Fin 1 => Fin 2) Unit,
      run (next ()) (boot (fun _ => 0) (fun _ t => if t = 0 then 31 else 5) (fun _ => [1]) 1) handedTwo =
        some S ∧ S.Quiet () ∧ S.released = 2 ∧ S.succeeded = 2 ∧ S.counter = 1 ∧ S.waits.queue () = [] := by
  have heval : (run (next ()) (boot (fun _ => 0) (fun _ t => if t = 0 then 31 else 5) (fun _ => [1]) 1)
      handedTwo).map (fun S => (S.releasing.length, S.waits.place ⟨0, 0⟩, S.waits.place ⟨0, 1⟩, S.released,
        S.succeeded, S.counter)) = some (0, .outside, .outside, 2, 2, 1) := rfl
  obtain ⟨S, hS, hv⟩ := Option.map_eq_some_iff.mp heval
  simp only [Prod.mk.injEq] at hv
  obtain ⟨hrel, hp0, hp1, hreleased, hsucceeded, hcounter⟩ := hv
  have hquiet : S.Quiet () := by
    refine ⟨List.length_eq_zero_iff.1 hrel, ?_⟩
    rintro ⟨c, t⟩ hs
    fin_cases c
    fin_cases t
    · simp [hp0, WaitPlace.source] at hs
    · simp [hp1, WaitPlace.source] at hs
  exact ⟨S, hS, hquiet, hreleased, hsucceeded, hcounter,
    (handoff_conserved () _ _ _ 1 _ hS).2.2.2 hquiet (by omega)⟩

end Handoff

end Cyros.Sync
