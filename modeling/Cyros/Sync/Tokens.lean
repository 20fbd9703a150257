import Cyros.Sync.WaitViews
import Mathlib.Algebra.BigOperators.Group.List.Basic
import Mathlib.Algebra.Ring.Nat
import Mathlib.Data.Fintype.Sigma

/-!
# Where the tokens of a semaphore are

A thread that a wake has chosen will poll once more or pass the wake on, so it counts as one more wake to
come.  `Covered` says that while anybody is on the queue whose poll found nothing, there is a wake to come
for every token in the counter.

* `Inv.card_chosen_wakeOne`: a wake that finds a thread trades itself for a chosen thread.
* `Inv.pollUnarmed`, `Inv.passOn`: a chosen thread is spent on a token, or for another chosen thread.
* `tokens_conserved`: in every state of every run the tokens are accounted for, and where nothing is in
  progress none is left beside a parked thread.
-/

namespace Cyros.Sync

open Cyros.Lib Cyros.Kernel

namespace Semaphore

variable {n : ℕ} {T : Fin n → Type} {Q : Type}
variable [DecidableEq Q] [∀ c, DecidableEq (T c)] [∀ c, Fintype (T c)]

/-! ### The invariant -/

section Invariant

variable (w : Q) (initial : ℕ) (S : Semaphore T Q)

def queued (t : Σ c, T c) : Bool := (S.waits.queue w).contains (t, false)

/-- The threads with a token in hand. -/
def inHand : Finset (Σ c, T c) :=
  Finset.univ.filter fun t => S.took t = true ∧ (S.waits.place t).source = some w

/-- The threads that a wake has chosen. -/
def chosen : Finset (Σ c, T c) :=
  Finset.univ.filter fun t => chosenAt w (S.queued w t) (S.after t) (S.waits.place t) = true

/-- The wakes that the releases under way have yet to make. -/
def wakes : ℕ := (S.releasing.map Releasing.wakes).sum

/-- **A wake to come for every token**, while the poll of anybody on the queue has found none. -/
def Covered : Prop :=
  ∀ t, starvedAt w (S.queued w t) (S.waits.place t) = true → S.counter ≤ S.wakes + (S.chosen w).card

structure Inv : Prop where
  waits : S.waits.Inv
  nodes : S.waits.Nodes
  told : ∀ t, Told w (S.took t) (S.after t) (S.answer t) (S.waits.place t)
  conserved : initial + S.released = S.counter + S.succeeded + (S.inHand w).card
  covered : S.Covered w

end Invariant

variable {w : Q} {initial : ℕ} {S S' : Semaphore T Q}

theorem mem_chosen {t : Σ c, T c} :
    t ∈ S.chosen w ↔ chosenAt w (S.queued w t) (S.after t) (S.waits.place t) = true := by
  simp [chosen]

omit [∀ c, DecidableEq (T c)] in
theorem mem_inHand {t : Σ c, T c} :
    t ∈ S.inHand w ↔ S.took t = true ∧ (S.waits.place t).source = some w := by
  simp [inHand]

theorem inv_boot (idle : ∀ c, T c) (basePriority : ∀ c, T c → Level) (threads : ∀ c, List (T c)) :
    Inv w initial (boot idle basePriority threads initial : Semaphore T Q) where
  waits := Waits.inv_boot idle basePriority threads
  nodes := Waits.nodes_boot idle basePriority threads
  told := fun t => ⟨nofun, nofun, fun _ => ⟨rfl, nofun⟩⟩
  conserved := by simp [boot, inHand]
  covered := fun t h => by simp [boot, Waits.boot, starvedAt] at h


/-! ### Steps that move one thread -/

/-- What is said of a thread reads the same in both states. -/
structure SameView (w : Q) (S S' : Semaphore T Q) (t : Σ c, T c) : Prop where
  took : S'.took t = S.took t
  after : S'.after t = S.after t
  answer : S'.answer t = S.answer t
  place : S'.waits.place t = S.waits.place t
  queued : S'.queued w t = S.queued w t

namespace SameView

variable {t : Σ c, T c}

omit [DecidableEq Q] [∀ c, Fintype (T c)] in
theorem told (h : SameView w S S' t) (ht : Told w (S.took t) (S.after t) (S.answer t) (S.waits.place t)) :
    Told w (S'.took t) (S'.after t) (S'.answer t) (S'.waits.place t) := by
  rwa [h.took, h.after, h.answer, h.place]

omit [DecidableEq Q] [∀ c, Fintype (T c)] in
theorem symm (h : SameView w S S' t) : SameView w S' S t :=
  ⟨h.took.symm, h.after.symm, h.answer.symm, h.place.symm, h.queued.symm⟩

theorem mem_chosen (h : SameView w S S' t) : t ∈ S'.chosen w ↔ t ∈ S.chosen w := by
  rw [Semaphore.mem_chosen, Semaphore.mem_chosen, h.after, h.place, h.queued]

theorem mem_inHand (h : SameView w S S' t) : t ∈ S'.inHand w ↔ t ∈ S.inHand w := by
  rw [Semaphore.mem_inHand, Semaphore.mem_inHand, h.took, h.place]

omit [∀ c, Fintype (T c)] in
theorem starved (h : SameView w S S' t) :
    starvedAt w (S'.queued w t) (S'.waits.place t) = starvedAt w (S.queued w t) (S.waits.place t) := by
  rw [h.place, h.queued]

end SameView

section OneThread

variable {t : Σ c, T c} (hsame : ∀ u, u ≠ t → SameView w S S' u)

include hsame

theorem told_of_same (h : Inv w initial S)
    (ht : Told w (S'.took t) (S'.after t) (S'.answer t) (S'.waits.place t)) (u : Σ c, T c) :
    Told w (S'.took u) (S'.after u) (S'.answer u) (S'.waits.place u) := by
  by_cases hu : u = t
  · rw [hu]
    exact ht
  · exact (hsame u hu).told (h.told u)

theorem card_chosen_le (ht : t ∈ S.chosen w → t ∈ S'.chosen w) :
    (S.chosen w).card ≤ (S'.chosen w).card := by
  apply Finset.card_le_card
  intro u hu
  by_cases hut : u = t
  · rw [hut] at hu ⊢
    exact ht hu
  · exact (hsame u hut).mem_chosen.2 hu

theorem card_chosen_le_succ : (S.chosen w).card ≤ (S'.chosen w).card + 1 := by
  have hsub : (S.chosen w).erase t ⊆ S'.chosen w := by
    intro u hu
    obtain ⟨hut, hu⟩ := Finset.mem_erase.1 hu
    exact (hsame u hut).mem_chosen.2 hu
  have hcard := Finset.card_le_card hsub
  have herase := Finset.pred_card_le_card_erase (s := S.chosen w) (a := t)
  omega

theorem card_inHand_eq (ht : t ∈ S'.inHand w ↔ t ∈ S.inHand w) :
    (S'.inHand w).card = (S.inHand w).card := by
  congr 1
  ext u
  by_cases hut : u = t
  · rw [hut, ht]
  · exact (hsame u hut).mem_inHand

theorem card_inHand_succ (hnot : t ∉ S.inHand w) (ht : t ∈ S'.inHand w) :
    (S'.inHand w).card = (S.inHand w).card + 1 := by
  rw [← Finset.card_insert_of_notMem hnot]
  congr 1
  ext u
  rw [Finset.mem_insert]
  by_cases hut : u = t
  · simp [hut, ht]
  · simp [hut, (hsame u hut).mem_inHand]

/-- The step covers every token that it leaves. -/
theorem Covered.step (h : S.Covered w)
    (ht : starvedAt w (S'.queued w t) (S'.waits.place t) = true →
      starvedAt w (S.queued w t) (S.waits.place t) = true)
    (hle : S'.counter + (S.wakes + (S.chosen w).card) ≤ S.counter + (S'.wakes + (S'.chosen w).card)) :
    S'.Covered w := by
  intro u hu
  have hstarved : starvedAt w (S.queued w u) (S.waits.place u) = true := by
    by_cases hut : u = t
    · rw [hut] at hu ⊢
      exact ht hu
    · rw [← (hsame u hut).starved]
      exact hu
  have := h u hstarved
  omega

end OneThread

/-- A step that moves no thread. -/
theorem Inv.of_same (hi : Inv w initial S) (hw : S'.waits.Inv) (hn : S'.waits.Nodes)
    (hsame : ∀ u, SameView w S S' u)
    (hconserved : initial + S'.released = S'.counter + S'.succeeded + (S.inHand w).card)
    (hcovered : ∀ u, starvedAt w (S.queued w u) (S.waits.place u) = true →
      S'.counter ≤ S'.wakes + (S.chosen w).card) : Inv w initial S' where
  waits := hw
  nodes := hn
  told := fun u => (hsame u).told (hi.told u)
  conserved := by
    have heq : S'.inHand w = S.inHand w := by
      ext u
      exact (hsame u).mem_inHand
    rw [heq]
    exact hconserved
  covered := by
    have heq : S'.chosen w = S.chosen w := by
      ext u
      exact (hsame u).mem_chosen
    intro u hu
    rw [(hsame u).starved] at hu
    rw [heq]
    exact hcovered u hu

omit [∀ c, Fintype (T c)] in
theorem queued_of_starvedAt {b : Bool} {p : WaitPlace Q} (h : starvedAt w b p = true) : b = true := by
  cases p <;> simp_all [starvedAt]

/-! ### Steps of the waits -/

section WaitSteps

variable {v : Waits T Q} {t u : Σ c, T c}

theorem sameView_pass {act : PassAct (T t.1) Q} (h : S.waits.next (.pass t act) = some v) (hu : u ≠ t) :
    SameView w S { S with waits := v } u :=
  ⟨rfl, rfl, rfl, (onQueue_pass (w := w) h hu).1, (onQueue_pass h hu).2⟩

theorem Inv.waitAct (hi : Inv w initial S) {act : WaitAct T Q} (hallow : S.allows w act = true)
    (h : S.waits.next act = some v) : Inv w initial { S with waits := v } := by
  have hleave : leaves w S.waits act = true := by cases act <;> exact hallow
  have hmoves : ∀ t, Told w (S.took t) (S.after t) (S.answer t) (v.place t) ∧
      ((v.place t).source = some w ↔ (S.waits.place t).source = some w) ∧
      (chosenAt w (S.queued w t) (S.after t) (S.waits.place t) = true →
        chosenAt w (onQueue w v t) (S.after t) (v.place t) = true) ∧
      (starvedAt w (onQueue w v t) (v.place t) = true →
        starvedAt w (S.queued w t) (S.waits.place t) = true) := by
    intro t
    rcases next_leaves hleave h t with ⟨hplace, hqueued⟩ | ⟨a, -, hallow, hmove⟩
    · rw [hplace, hqueued]
      exact ⟨hi.told t, Iff.rfl, id, id⟩
    · obtain ⟨hcancel, hin, hout⟩ := hi.told t
      obtain ⟨hsource, hcancel'⟩ := passMove_source hmove hallow hcancel
      by_cases hs : (S.waits.place t).source = some w
      · obtain ⟨hanswer, htook⟩ := hin hs
        obtain ⟨htook', hmore⟩ := passMove_inside hmove hallow hcancel hs htook
        exact ⟨⟨hcancel', fun _ => ⟨hanswer, htook'⟩, fun hne => absurd (hsource.2 hs) hne⟩, hsource, hmore⟩
      · have hs' : (v.place t).source ≠ some w := fun he => hs (hsource.1 he)
        refine ⟨⟨hcancel', fun he => absurd he hs', fun _ => hout hs⟩, hsource, ?_⟩
        simp [chosenAt_of_ne hs, starvedAt_of_ne hs']
  refine ⟨hi.waits.next h, hi.nodes.next h, fun t => (hmoves t).1, ?_, fun t ht => ?_⟩
  · have hhand : ({ S with waits := v } : Semaphore T Q).inHand w = S.inHand w := by
      ext t
      rw [mem_inHand, mem_inHand, (hmoves t).2.1]
    rw [hhand]
    exact hi.conserved
  · have hsub : S.chosen w ⊆ ({ S with waits := v } : Semaphore T Q).chosen w := fun u hu =>
      mem_chosen.2 ((hmoves u).2.2.1 (mem_chosen.1 hu))
    exact (hi.covered t ((hmoves t).2.2.2 ht)).trans (Nat.add_le_add_left (Finset.card_le_card hsub) _)

end WaitSteps

/-! ### Wakes -/

section Wakes

variable {v : Waits T Q} {t u : Σ c, T c}

theorem next_wakeOne (h : S.waits.next (.wake w .one) = some v) :
    v.place = S.waits.place ∧ v.queue w = (S.waits.queue w).drop 1 := by
  cases h
  exact ⟨rfl, Function.update_self ..⟩

omit [∀ c, DecidableEq (T c)] [∀ c, Fintype (T c)] in
/-- Armed on the queue, the thread has been chosen exactly if its node is gone. -/
theorem chosenAt_of_armed {p : WaitPlace Q} (h : (w, false) ∈ p.armed) (queued after : Bool) :
    chosenAt w queued after p = !queued := by
  cases p <;> simp_all [WaitPlace.armed, chosenAt]

/-- A wake of `w` starves nobody. -/
theorem starved_of_wakeOne (h : S.waits.next (.wake w .one) = some v)
    (hu : starvedAt w ((v.queue w).contains (u, false)) (v.place u) = true) :
    starvedAt w (S.queued w u) (S.waits.place u) = true := by
  obtain ⟨hplace, hqueue⟩ := next_wakeOne h
  rw [hplace, hqueue] at hu
  refine starvedAt_mono (fun hmem => ?_) hu
  rw [List.contains_iff_mem] at hmem
  exact List.contains_iff_mem.2 (List.mem_of_mem_drop hmem)

/-- **A wake of `w` chooses a thread**, if there is one on the queue. -/
theorem Inv.card_chosen_wakeOne (hi : Inv w initial S) (h : S.waits.next (.wake w .one) = some v)
    (hne : S.waits.queue w ≠ []) :
    (S.chosen w).card + 1 ≤ (({ S with waits := v } : Semaphore T Q).chosen w).card := by
  obtain ⟨x, rest, hx⟩ := List.exists_cons_of_ne_nil hne
  obtain ⟨hplace, harmed, hqueued, hgone, hother⟩ := wake_one hi.nodes (fun t => (hi.told t).cancel) hx h
  have hnot : x.1 ∉ S.chosen w := by
    rw [mem_chosen, chosenAt_of_armed harmed, show S.queued w x.1 = true from hqueued]
    decide
  rw [← Finset.card_insert_of_notMem hnot]
  apply Finset.card_le_card
  intro y hy
  rw [mem_chosen]
  show chosenAt w (onQueue w v y) (S.after y) (v.place y) = true
  rw [hplace]
  by_cases hyx : y = x.1
  · rw [hyx, chosenAt_of_armed harmed, hgone]
    rfl
  · rw [hother y hyx]
    exact mem_chosen.1 ((Finset.mem_insert.1 hy).resolve_left hyx)

end Wakes

/-! ### Releases -/

theorem wakes_eraseIdx {l : List Releasing} {i : ℕ} {r : Releasing} (h : l[i]? = some r) :
    (l.map Releasing.wakes).sum = r.wakes + ((l.eraseIdx i).map Releasing.wakes).sum := by
  obtain ⟨hi, rfl⟩ := List.getElem?_eq_some_iff.1 h
  have hperm := (List.getElem_cons_eraseIdx_perm hi).map Releasing.wakes
  rw [← hperm.sum_eq, List.map_cons, List.sum_cons]

omit [∀ c, Fintype (T c)] in
theorem ne_nil_of_starved {u : Σ c, T c}
    (hu : starvedAt w (S.queued w u) (S.waits.place u) = true) : S.waits.queue w ≠ [] := by
  have hmem := List.contains_iff_mem.1 (queued_of_starvedAt hu)
  exact List.ne_nil_of_mem hmem

theorem Inv.proceed (hi : Inv w initial S) {i : ℕ} (h : S.proceed w i = some S') : Inv w initial S' := by
  unfold Semaphore.proceed at h
  split at h
  · cases h
  · next tokens hr =>
    have hsum := wakes_eraseIdx hr
    cases h
    refine hi.of_same hi.waits hi.nodes (fun _ => ⟨rfl, rfl, rfl, rfl, rfl⟩) hi.conserved fun u hu => ?_
    have hcov := hi.covered u hu
    simp only [wakes, if_neg (ne_nil_of_starved hu), List.map_cons, List.sum_cons, Releasing.wakes] at *
    omega
  · next hr =>
    have hsum := wakes_eraseIdx hr
    cases h
    refine hi.of_same hi.waits hi.nodes (fun _ => ⟨rfl, rfl, rfl, rfl, rfl⟩) hi.conserved fun u hu => ?_
    have hcov := hi.covered u hu
    simp only [wakes, Releasing.wakes] at *
    omega
  · next left hr =>
    have hsum := wakes_eraseIdx hr
    obtain ⟨S₁, hstep, rfl⟩ := Option.map_eq_some_iff.mp h
    obtain ⟨v, hv, rfl⟩ := Option.map_eq_some_iff.mp hstep
    have hplace := (next_wakeOne hv).1
    refine ⟨hi.waits.next hv, hi.nodes.next hv, fun u => ?_, ?_, fun u hu => ?_⟩
    · show Told w _ _ _ (v.place u)
      rw [hplace]
      exact hi.told u
    · have hhand : ({ S with waits := v, releasing := .waking left :: S.releasing.eraseIdx i } :
          Semaphore T Q).inHand w = S.inHand w := by
        ext u
        simp [mem_inHand, hplace]
      rw [hhand]
      exact hi.conserved
    · have hstarved := starved_of_wakeOne hv hu
      have hcov := hi.covered u hstarved
      have hcard := hi.card_chosen_wakeOne hv (ne_nil_of_starved hstarved)
      have hchosen : ({ S with waits := v, releasing := .waking left :: S.releasing.eraseIdx i } :
          Semaphore T Q).chosen w = ({ S with waits := v } : Semaphore T Q).chosen w := rfl
      rw [hchosen]
      simp only [wakes, List.map_cons, List.sum_cons, Releasing.wakes] at *
      omega

/-! ### The waits for a token -/

section Waiting

variable {v : Waits T Q} {t : Σ c, T c} {cancel : Option Q} {satisfied found : Bool}

/-- **An armed poll that finds a token**: a wake that has taken the node will be passed on. -/
theorem Inv.pollTakes (hi : Inv w initial S) (hp : S.waits.place t = .polling w cancel)
    (hpos : 0 < S.counter) (hv : S.waits.next (.pass t (.poll true false)) = some v) :
    Inv w initial (takeToken { S with waits := v } t) := by
  obtain ⟨hcancel, hin, -⟩ := hi.told t
  rw [hp] at hcancel hin
  obtain ⟨hanswer, htook, hafter⟩ := hin rfl
  obtain ⟨hqueue, hplace | hplace⟩ := place_poll hp hv
  · have hsame : ∀ u, u ≠ t → SameView w S (takeToken { S with waits := v } t) u := fun u hu =>
      { sameView_pass (w := w) hv hu with took := Function.update_of_ne hu _ _ }
    have hhand := card_inHand_succ hsame (fun hmem => by simp [mem_inHand, htook] at hmem)
      (by simp [mem_inHand, takeToken, hplace, WaitPlace.source])
    have hchosen := card_chosen_le hsame (fun hmem => by
      rw [mem_chosen, hp] at hmem
      rw [mem_chosen]
      simp_all [takeToken, chosenAt, queued])
    refine ⟨hi.waits.next hv, hi.nodes.next hv, told_of_same hsame hi ?_, ?_,
      Covered.step hsame hi.covered ?_ ?_⟩
    · refine ⟨?_, fun _ => ?_, fun hne => absurd ?_ hne⟩ <;>
        simp_all [takeToken, WaitPlace.cancel, WaitPlace.source, TookAt]
    · have hcons := hi.conserved
      simp only [takeToken] at hhand ⊢
      omega
    · simp [takeToken, hplace, starvedAt]
    · simp only [takeToken, wakes] at hchosen ⊢
      omega
  · cases hplace.1

/-- **An armed poll that finds none.** -/
theorem Inv.pollFinds (hi : Inv w initial S) (hp : S.waits.place t = .polling w cancel)
    (hzero : S.counter = 0) {raised : Bool}
    (hv : S.waits.next (.pass t (.poll false raised)) = some v) : Inv w initial { S with waits := v } := by
  obtain ⟨hcancel, hin, -⟩ := hi.told t
  rw [hp] at hcancel hin
  obtain ⟨hanswer, htook, hafter⟩ := hin rfl
  have hsame : ∀ u, u ≠ t → SameView w S { S with waits := v } u := fun u hu => sameView_pass hv hu
  have hplace := (place_poll hp hv).2
  have htold : Told w (S.took t) (S.after t) (S.answer t) (v.place t) := by
    refine ⟨?_, fun _ => ?_, fun hne => absurd ?_ hne⟩ <;> rcases hplace with hplace | ⟨-, hplace⟩ <;>
      simp_all [WaitPlace.cancel, WaitPlace.source, TookAt]
  refine ⟨hi.waits.next hv, hi.nodes.next hv, told_of_same hsame hi htold, ?_, fun u _ => ?_⟩
  · rw [card_inHand_eq hsame (by simp [mem_inHand, htook])]
    exact hi.conserved
  · show S.counter ≤ _
    omega

theorem Inv.pollUnarmed (hi : Inv w initial S) (hp : S.waits.place t = .polled w cancel false found)
    (hafter : S.after t = false) :
    Inv w initial (if 0 < S.counter then (S.takeToken t).setAfter t true else S.setAfter t true) := by
  obtain ⟨hcancel, hin, -⟩ := hi.told t
  rw [hp] at hcancel hin
  obtain ⟨hanswer, htook⟩ := hin rfl
  have htook : S.took t = false := htook (Or.inl hafter)
  split
  · next hpos =>
    have hsame : ∀ u, u ≠ t → SameView w S ((S.takeToken t).setAfter t true) u := fun u hu =>
      ⟨Function.update_of_ne hu _ _, Function.update_of_ne hu _ _, rfl, rfl, rfl⟩
    have hhand := card_inHand_succ hsame (fun hmem => by simp [mem_inHand, htook] at hmem)
      (by simp [mem_inHand, takeToken, setAfter, hp, WaitPlace.source])
    have hchosen := card_chosen_le_succ hsame
    refine ⟨hi.waits, hi.nodes, told_of_same hsame hi ?_, ?_, Covered.step hsame hi.covered id ?_⟩
    · refine ⟨?_, fun _ => ?_, fun hne => absurd ?_ hne⟩ <;>
        simp_all [takeToken, setAfter, WaitPlace.cancel, WaitPlace.source, TookAt]
    · have hcons := hi.conserved
      simp only [takeToken, setAfter] at hhand ⊢
      omega
    · simp only [takeToken, setAfter, wakes] at hchosen ⊢
      omega
  · next hzero =>
    have hsame : ∀ u, u ≠ t → SameView w S (S.setAfter t true) u := fun u hu =>
      ⟨rfl, Function.update_of_ne hu _ _, rfl, rfl, rfl⟩
    refine ⟨hi.waits, hi.nodes, told_of_same hsame hi ?_, ?_, fun u _ => ?_⟩
    · refine ⟨?_, fun _ => ?_, fun hne => absurd ?_ hne⟩ <;>
        simp_all [setAfter, WaitPlace.cancel, WaitPlace.source, TookAt]
    · rw [card_inHand_eq hsame Iff.rfl]
      exact hi.conserved
    · show S.counter ≤ _
      omega

/-- **The pass-on**: the thread it chooses stands for the one that passes on. -/
theorem Inv.passOn (hi : Inv w initial S) (hp : S.waits.place t = .polled w cancel true found)
    (hv : S.waits.next (.wake w .one) = some v) :
    Inv w initial (setAfter { S with waits := v } t true) := by
  obtain ⟨hplace, -⟩ := next_wakeOne hv
  obtain ⟨hcancel, hin, -⟩ := hi.told t
  rw [hp] at hcancel hin
  obtain ⟨hanswer, htook⟩ := hin rfl
  have hsame : ∀ u, u ≠ t →
      SameView w { S with waits := v } (setAfter { S with waits := v } t true) u := fun u hu =>
    ⟨rfl, Function.update_of_ne hu _ _, rfl, rfl, rfl⟩
  refine ⟨hi.waits.next hv, hi.nodes.next hv, fun u => ?_, ?_, fun u hu => ?_⟩
  · show Told w (S.took u) (Function.update S.after t true u) (S.answer u) (v.place u)
    rw [hplace]
    by_cases hu : u = t
    · subst hu
      rw [Function.update_self, hp]
      exact ⟨hcancel, fun _ => ⟨hanswer, fun _ => htook (Or.inr rfl)⟩, fun hne => absurd rfl hne⟩
    · rw [Function.update_of_ne hu]
      exact hi.told u
  · have hhand : (setAfter { S with waits := v } t true).inHand w = S.inHand w := by
      ext u
      simp [mem_inHand, setAfter, hplace]
    rw [hhand]
    exact hi.conserved
  · have hstarved := starved_of_wakeOne hv hu
    have hcov := hi.covered u hstarved
    have hcard := hi.card_chosen_wakeOne hv (ne_nil_of_starved hstarved)
    have hless := card_chosen_le_succ hsame
    simp only [setAfter, wakes] at hcov hless ⊢
    omega

theorem Inv.again (hi : Inv w initial S) (hp : S.waits.place t = .polled w cancel false found)
    (hafter : S.after t = true) (htook : S.took t = false)
    (hv : S.waits.next (.pass t (.start w cancel)) = some v) :
    Inv w initial (setAfter { S with waits := v } t false) := by
  obtain ⟨hcancel, hin, -⟩ := hi.told t
  rw [hp] at hcancel hin
  obtain ⟨hanswer, -⟩ := hin rfl
  have hsame : ∀ u, u ≠ t → SameView w S (setAfter { S with waits := v } t false) u := fun u hu =>
    { sameView_pass (w := w) hv hu with after := Function.update_of_ne hu _ _ }
  obtain ⟨-, hplace⟩ := place_start hv
  have hchosen := card_chosen_le hsame (fun hmem => by simp [mem_chosen, hp, chosenAt, hafter] at hmem)
  refine ⟨hi.waits.next hv, hi.nodes.next hv, told_of_same hsame hi ?_, ?_,
    Covered.step hsame hi.covered ?_ ?_⟩
  · refine ⟨?_, fun _ => ?_, fun hne => absurd ?_ hne⟩ <;>
      simp_all [setAfter, WaitPlace.cancel, WaitPlace.source, TookAt]
  · rw [card_inHand_eq hsame (by simp [mem_inHand, setAfter, htook])]
    exact hi.conserved
  · simp [setAfter, hplace, starvedAt]
  · simp only [setAfter, wakes] at hchosen ⊢
    omega

theorem Inv.finish (hi : Inv w initial S) (hp : S.waits.place t = .polled w cancel satisfied found)
    (hafter : S.after t = true ∨ found = false ∧ satisfied = true)
    (hv : S.waits.next (.pass t .finish) = some v) :
    Inv w initial (reply { S with waits := v } t (S.took t)) := by
  have hsame : ∀ u, u ≠ t → SameView w S (reply { S with waits := v } t (S.took t)) u := fun u hu =>
    { sameView_pass (w := w) hv hu with
      after := Function.update_of_ne hu _ _
      answer := Function.update_of_ne hu _ _ }
  obtain ⟨-, hplace⟩ := place_finish hv
  have hchosen := card_chosen_le hsame (fun hmem => by
    rw [mem_chosen, hp] at hmem
    rcases hafter with hafter | ⟨hfound, -⟩ <;> simp_all [chosenAt])
  have hout : t ∉ (reply { S with waits := v } t (S.took t)).inHand w := by
    simp [mem_inHand, reply, hplace, WaitPlace.source]
  refine ⟨hi.waits.next hv, hi.nodes.next hv, told_of_same hsame hi ?_, ?_,
    Covered.step hsame hi.covered ?_ ?_⟩
  · refine ⟨?_, fun hs => ?_, fun _ => ⟨?_, ?_⟩⟩ <;>
      simp_all [reply, WaitPlace.cancel, WaitPlace.source]
  · have hcons := hi.conserved
    cases htook : S.took t with
    | false =>
        rw [htook] at hsame hout
        rw [card_inHand_eq hsame (by simp [hout, mem_inHand, htook])]
        exact hcons
    | true =>
        rw [htook] at hsame hout
        have hmem : t ∈ S.inHand w := by simp [mem_inHand, htook, hp, WaitPlace.source]
        have hcard := card_inHand_succ (fun u hu => (hsame u hu).symm) hout hmem
        simp only [reply, Bool.toNat_true] at hcard ⊢
        omega
  · simp [reply, hplace, starvedAt]
  · simp only [reply, wakes] at hchosen ⊢
    omega

theorem Inv.after_outside (hi : Inv w initial S) (hp : S.waits.place t = .outside) : S.after t = false := by
  have hout := (hi.told t).outside
  rw [hp] at hout
  exact (hout nofun).1

theorem Inv.wait (hi : Inv w initial S) (hp : S.waits.place t = .outside) (hcancel : cancel ≠ some w)
    (hv : S.waits.next (.pass t (.start w cancel)) = some v) :
    Inv w initial { S with
      waits := v
      took := Function.update S.took t false
      answer := Function.update S.answer t none } := by
  have hafter := hi.after_outside hp
  obtain ⟨-, hplace⟩ := place_start hv
  have hsame : ∀ u, u ≠ t → SameView w S { S with
      waits := v
      took := Function.update S.took t false
      answer := Function.update S.answer t none } u := fun u hu =>
    { sameView_pass (w := w) hv hu with
      took := Function.update_of_ne hu _ _
      answer := Function.update_of_ne hu _ _ }
  have hchosen := card_chosen_le hsame (fun hmem => by simp [mem_chosen, hp, chosenAt] at hmem)
  refine ⟨hi.waits.next hv, hi.nodes.next hv, told_of_same hsame hi ?_, ?_,
    Covered.step hsame hi.covered ?_ ?_⟩
  · refine ⟨?_, fun _ => ?_, fun hne => absurd ?_ hne⟩ <;>
      simp_all [WaitPlace.cancel, WaitPlace.source, TookAt]
  · rw [card_inHand_eq hsame (by simp [mem_inHand, hp, WaitPlace.source])]
    exact hi.conserved
  · simp [hplace, starvedAt]
  · simp only [wakes] at hchosen ⊢
    omega

theorem Inv.tryAcquire (hi : Inv w initial S) (hp : S.waits.place t = .outside) :
    Inv w initial { S with
      counter := S.counter - 1
      took := Function.update S.took t (decide (0 < S.counter))
      answer := Function.update S.answer t (some (decide (0 < S.counter)))
      succeeded := S.succeeded + (decide (0 < S.counter)).toNat } := by
  have hcons := hi.conserved
  have hafter := hi.after_outside hp
  have hsame : ∀ u, u ≠ t → SameView w S { S with
      counter := S.counter - 1
      took := Function.update S.took t (decide (0 < S.counter))
      answer := Function.update S.answer t (some (decide (0 < S.counter)))
      succeeded := S.succeeded + (decide (0 < S.counter)).toNat } u := fun u hu =>
    ⟨Function.update_of_ne hu _ _, rfl, Function.update_of_ne hu _ _, rfl, rfl⟩
  refine ⟨hi.waits, hi.nodes, told_of_same hsame hi ?_, ?_, Covered.step hsame hi.covered id ?_⟩
  · refine ⟨?_, fun hs => ?_, fun _ => ⟨?_, ?_⟩⟩ <;> simp_all [WaitPlace.cancel, WaitPlace.source]
  · rw [card_inHand_eq hsame (by simp [mem_inHand, hp, WaitPlace.source])]
    by_cases hpos : 0 < S.counter <;> simp [hpos] <;> omega
  · have hchosen := card_chosen_le hsame id
    simp only [wakes] at hchosen ⊢
    omega

theorem of_waitStep {act : WaitAct T Q} {f : Semaphore T Q → Semaphore T Q}
    (h : (S.waitStep act).map f = some S') : ∃ v, S.waits.next act = some v ∧ f { S with waits := v } = S' := by
  simpa only [waitStep, Option.map_map, Option.map_eq_some_iff, Function.comp_apply] using h

/-- **One step of a wait keeps the invariant.** -/
theorem Inv.waiting (hi : Inv w initial S) {act : SemAct T Q} (h : S.waiting w act = some S') :
    Inv w initial S' := by
  cases act with
  | poll t raised =>
      simp only [Semaphore.waiting] at h
      split at h
      · next w' cancel hp =>
        obtain ⟨hw, hstep⟩ := Option.ite_none_left_eq_some.1 h
        obtain rfl : w' = w := not_not.1 hw
        split at hstep
        · next hpos =>
          obtain ⟨v, hv, rfl⟩ := of_waitStep hstep
          exact hi.pollTakes hp hpos hv
        · next hzero =>
          obtain ⟨v, hv, rfl⟩ := Option.map_eq_some_iff.mp hstep
          exact hi.pollFinds hp (by omega) hv
      · cases h
  | pollUnarmed t =>
      simp only [Semaphore.waiting] at h
      split at h
      · next w' cancel found hp =>
        obtain ⟨hg, hstep⟩ := Option.ite_none_left_eq_some.1 h
        push Not at hg
        obtain ⟨rfl, hafter, -⟩ := hg
        have hinv := hi.pollUnarmed hp (by simpa using hafter)
        split at hstep <;> cases hstep <;> simp_all
      · cases h
  | passOn t =>
      simp only [Semaphore.waiting] at h
      split at h
      · next w' cancel hp =>
        obtain ⟨hg, hstep⟩ := Option.ite_none_left_eq_some.1 h
        push Not at hg
        obtain ⟨rfl, -, -⟩ := hg
        obtain ⟨v, hv, rfl⟩ := of_waitStep hstep
        exact hi.passOn hp hv
      · cases h
  | again t =>
      simp only [Semaphore.waiting] at h
      split at h
      · next w' cancel found hp =>
        obtain ⟨⟨rfl, hafter, htook⟩, hstep⟩ := Option.ite_none_right_eq_some.1 h
        obtain ⟨v, hv, rfl⟩ := of_waitStep hstep
        exact hi.again hp hafter (by simpa using htook) hv
      · cases h
  | finish t =>
      simp only [Semaphore.waiting] at h
      split at h
      · next w' cancel satisfied found hp =>
        obtain ⟨hw, hstep⟩ := Option.ite_none_left_eq_some.1 h
        obtain rfl : w' = w := not_not.1 hw
        split at hstep
        · next hsat =>
          obtain ⟨hpass, hstep⟩ := Option.ite_none_left_eq_some.1 hstep
          obtain ⟨v, hv, rfl⟩ := of_waitStep hstep
          have htook : S.took t = true := by
            have htold := (hi.told t).inside
            rw [hp] at htold
            rw [(htold rfl).2 (Or.inr hsat), hsat]
          have hinv := hi.finish hp (by cases found <;> simp_all) hv
          rwa [htook] at hinv
        · obtain ⟨hg, hstep⟩ := Option.ite_none_right_eq_some.1 hstep
          rw [Bool.and_eq_true] at hg
          obtain ⟨v, hv, rfl⟩ := of_waitStep hstep
          exact hi.finish hp (Or.inl hg.1) hv
      · cases h
  | _ => cases h

end Waiting

/-! ### Runs -/

/-- **One step keeps the invariant.** -/
theorem Inv.next (hi : Inv w initial S) {act : SemAct T Q} (h : S.next w act = some S') :
    Inv w initial S' := by
  have hcons := hi.conserved
  cases act with
  | waits act =>
      obtain ⟨hallow, h⟩ := Option.ite_none_right_eq_some.1 h
      obtain ⟨v, hv, rfl⟩ := Option.map_eq_some_iff.mp h
      exact hi.waitAct hallow hv
  | release tokens =>
      cases h
      refine hi.of_same hi.waits hi.nodes (fun _ => ⟨rfl, rfl, rfl, rfl, rfl⟩) ?_ fun u hu => ?_
      · show initial + (S.released + tokens) = S.counter + tokens + S.succeeded + _
        omega
      · have hcov := hi.covered u hu
        simp only [wakes, List.map_cons, List.sum_cons, Releasing.wakes] at hcov ⊢
        omega
  | proceed i => exact hi.proceed h
  | tryAcquireIsr =>
      cases h
      split
      · next hpos =>
        refine hi.of_same hi.waits hi.nodes (fun _ => ⟨rfl, rfl, rfl, rfl, rfl⟩) ?_ fun u hu => ?_
        · show initial + S.released = S.counter - 1 + (S.succeeded + 1) + _
          omega
        · have hcov := hi.covered u hu
          simp only [wakes] at hcov ⊢
          omega
      · exact hi
  | tryAcquire t =>
      obtain ⟨⟨-, hp⟩, rfl⟩ := of_guard h
      exact hi.tryAcquire hp
  | wait t cancel =>
      obtain ⟨⟨hp, hcancel⟩, h⟩ := Option.ite_none_right_eq_some.1 h
      obtain ⟨v, hv, rfl⟩ := of_waitStep h
      exact hi.wait hp hcancel hv
  | poll | pollUnarmed | passOn | again | finish =>
      simp only [Semaphore.next] at h
      exact hi.waiting h

/-- The thread is parked on the semaphore. -/
def Parked (w : Q) (S : Semaphore T Q) (t : Σ c, T c) : Prop :=
  (S.waits.cores t.1).sched.state t.2 = .blocked ∧ ∃ cancel, S.waits.place t = .disarming w cancel false

/-- **Nothing is in progress**: no release is under way, whoever waits for a token is parked, and no wake
of theirs is still to be delivered. -/
structure Quiet (w : Q) (S : Semaphore T Q) : Prop where
  releases : S.releasing = []
  acquires : ∀ t, (S.waits.place t).source = some w → S.Parked w t
  wakes : ∀ t, (S.waits.place t).source = some w → ¬ S.waits.MakeReadyOwed t

/-- In a quiet state no wake has chosen anybody. -/
theorem Quiet.chosen_eq_empty (hq : S.Quiet w) (hi : Inv w initial S) : S.chosen w = ∅ := by
  refine Finset.eq_empty_of_forall_notMem fun u hu => ?_
  rw [mem_chosen] at hu
  have hsource : (S.waits.place u).source = some w := by
    by_contra hne
    rw [chosenAt_of_ne hne] at hu
    cases hu
  obtain ⟨hblocked, cancel, hp⟩ := hq.acquires u hsource
  have harmed : (w, false) ∈ (S.waits.place u).armed := by simp [hp, WaitPlace.armed]
  have hgone : (u, false) ∉ S.waits.queue w := by
    rw [chosenAt_of_armed harmed] at hu
    simpa [queued] using hu
  exact hq.wakes u hsource (hi.waits.makeReadyOwed hblocked harmed hgone)

/-- **Tokens are conserved, and none waits beside a parked thread.**  In every state of every run: the
tokens there were and came are in the counter, with acquires that have returned, or in the hands of
threads whose acquire has yet to return; a call has returned true exactly if it took a token; and where
nothing is in progress, no thread is parked while the counter holds a token. -/
theorem tokens_conserved (w : Q) (idle : ∀ c, T c) (basePriority : ∀ c, T c → Level)
    (threads : ∀ c, List (T c)) (initial : ℕ) (acts : List (SemAct T Q))
    (hrun : run (next w) (boot idle basePriority threads initial) acts = some S) :
    initial + S.released = S.counter + S.succeeded + (S.inHand w).card ∧
      (∀ t b, S.answer t = some b → (b = true ↔ S.took t = true)) ∧
      (S.Quiet w → ∀ t, S.Parked w t → S.counter = 0) := by
  have hi : Inv w initial S := run_invariant (I := Inv w initial) (fun _ _ _ hi h => hi.next h)
    (inv_boot idle basePriority threads) hrun
  refine ⟨hi.conserved, fun t b hb => ?_, fun hq t hparked => ?_⟩
  · obtain ⟨-, hin, hout⟩ := hi.told t
    by_cases hs : (S.waits.place t).source = some w
    · rw [(hin hs).1] at hb
      cases hb
    · rw [(hout hs).2 b hb]
  · obtain ⟨hblocked, cancel, hp⟩ := hparked
    have hsource : (S.waits.place t).source = some w := by rw [hp]; rfl
    have harmed : (w, false) ∈ (S.waits.place t).armed := by simp [hp, WaitPlace.armed]
    have hqueued : S.queued w t = true := by
      by_contra hgone
      exact hq.wakes t hsource (hi.waits.makeReadyOwed hblocked harmed (by simpa [queued] using hgone))
    have hcov := hi.covered t (by simp [hp, starvedAt, hqueued])
    rw [hq.chosen_eq_empty hi, wakes, hq.releases] at hcov
    simpa using hcov

/-- One core with thread `1` and a token: a release finds nobody, the thread takes both tokens, fails a
third time and parks with a deadline. -/
def drainedAndParked : List (SemAct (fun _ : Fin 1 => Fin 2) Bool) :=
  [.release 1, .proceed 0, .tryAcquire ⟨0, 1⟩, .wait ⟨0, 1⟩ (some true), .waits (.pass ⟨0, 1⟩ .arm),
    .waits (.pass ⟨0, 1⟩ .armCancel), .poll ⟨0, 1⟩ false, .waits (.pass ⟨0, 1⟩ .settle),
    .waits (.pass ⟨0, 1⟩ .disarm), .waits (.pass ⟨0, 1⟩ .disarmCancel), .finish ⟨0, 1⟩, .tryAcquire ⟨0, 1⟩,
    .wait ⟨0, 1⟩ (some true), .waits (.pass ⟨0, 1⟩ .arm), .waits (.pass ⟨0, 1⟩ .armCancel),
    .poll ⟨0, 1⟩ false, .waits (.pass ⟨0, 1⟩ (.commit fun _ => 0))]

theorem tokens_conserved_parked :
    ∃ S : Semaphore (fun _ : Fin 1 => Fin 2) Bool,
      run (next false) (boot (fun _ => 0) (fun _ t => if t = 0 then 31 else 5) (fun _ => [1]) 1)
        drainedAndParked = some S ∧ S.Quiet false ∧ S.Parked false ⟨0, 1⟩ ∧ S.succeeded = 2 ∧
        S.counter = 0 := by
  have heval : (run (next false) (boot (fun _ => 0) (fun _ t => if t = 0 then 31 else 5) (fun _ => [1]) 1)
      drainedAndParked).map (fun S => (S.releasing, S.waits.place ⟨0, 0⟩, S.waits.place ⟨0, 1⟩,
        (S.waits.cores 0).sched.state 1, S.waits.called, (S.waits.cores 0).irqs,
        (S.waits.cores 0).place 0, (S.waits.cores 0).place 1, (S.waits.cores 0).handler,
        (S.waits.cores 0).sched.pending 1, S.succeeded)) =
      some ([], .outside, .disarming false (some true) false, .blocked, [], [], .idle, .idle, .idle, false,
        2) := rfl
  obtain ⟨S, hS, hv⟩ := Option.map_eq_some_iff.mp heval
  simp only [Prod.mk.injEq] at hv
  obtain ⟨hrel, hp0, hp1, hblocked, hcalled, hirqs, hplace0, hplace1, hhandler, hpending, hsucc⟩ := hv
  have hparked : S.Parked false ⟨0, 1⟩ := ⟨hblocked, some true, hp1⟩
  have hone : ∀ t : Σ _ : Fin 1, Fin 2, (S.waits.place t).source = some false → t = ⟨0, 1⟩ := by
    rintro ⟨c, t⟩ hs
    fin_cases c
    fin_cases t
    · simp [hp0, WaitPlace.source] at hs
    · rfl
  have hquiet : S.Quiet false := by
    refine ⟨hrel, fun t hs => hone t hs ▸ hparked, fun t hs => ?_⟩
    rw [hone t hs]
    refine Waits.not_makeReadyOwed hcalled hirqs (fun t => ?_) hhandler hpending
    fin_cases t
    · exact hplace0
    · exact hplace1
  exact ⟨S, hS, hquiet, hparked, hsucc, (tokens_conserved false _ _ _ 1 _ hS).2.2 hquiet _ hparked⟩

end Semaphore

end Cyros.Sync
