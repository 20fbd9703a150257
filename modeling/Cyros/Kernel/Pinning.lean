import Mathlib.Data.BitVec
import Mathlib.Data.List.FinRange
import Cyros.Lib.Run

/-!
# Pinning

`thread_registry::register_thread` gives a new thread its number, counts it in `active_threads` and,
under the kernel's lock, pins it: `pin_thread_to_core` goes over the cores from the lowest and takes
the first allowed one whose `pinned_thread_counter` is least.  The end of a thread takes it out of
`active_threads` again, and nothing takes it out of the counter of its core.

So the counter of a core is the number of the threads that were ever pinned to it
(`Registry.Counted`).  `pinning_balances` says what the loop then guarantees, and
`pinning_counts_the_ended` is a run in which a core without a live thread is passed over for one that
has a thread.
-/

namespace Cyros.Kernel

open Cyros.Lib

variable {n : ℕ}

/-- `core_affinity::allows`. -/
def allows (mask : BitVec 32) (core : Fin n) : Bool :=
  mask &&& (1#32 <<< core.val) != 0#32

/-- A registered thread: what it was created with and where it was pinned. -/
structure Registered (n : ℕ) where
  id : ℕ
  affinity : BitVec 32
  pinnedCore : Fin n
  terminated : Bool
deriving DecidableEq

/-- The thread registry, and the counters of the cores' schedulers. -/
structure Registry (n : ℕ) where
  /-- `thread_id_generator`. -/
  idGenerator : ℕ
  activeThreads : ℕ
  /-- `pinned_thread_counter` of each core. -/
  counter : Fin n → ℕ
  /-- Every thread registered so far, in the order of the registrations. -/
  threads : List (Registered n)

namespace Registry

/-- What the loop of `pin_thread_to_core` carries: `best_core` once `found`, and `best_load`. -/
structure Best (n : ℕ) where
  core : Option (Fin n)
  load : ℕ

/-- One turn of the loop. -/
def consider (mask : BitVec 32) (load : Fin n → ℕ) (best : Best n) (core : Fin n) : Best n :=
  if allows mask core = true ∧ load core < best.load then ⟨some core, load core⟩ else best

/-- The core `pin_thread_to_core` finds; `none` is its failed requirement. -/
def pinThreadToCore (mask : BitVec 32) (load : Fin n → ℕ) : Option (Fin n) :=
  ((List.finRange n).foldl (consider mask load) ⟨none, 2 ^ 32 - 1⟩).core

/-- `scheduler::pin_thread`. -/
def pinThread (s : Registry n) (mask : BitVec 32) (core : Fin n) : Registry n :=
  { s with
    counter := Function.update s.counter core ((s.counter core + 1) % 2 ^ 32)
    threads := s.threads ++ [⟨s.idGenerator, mask, core, false⟩] }

/-- `register_thread`, up to the end of its critical section. -/
def registerThread (s : Registry n) (mask : BitVec 32) : Option (Registry n) :=
  (pinThreadToCore mask s.counter).map fun core =>
    { s.pinThread mask core with
      idGenerator := (s.idGenerator + 1) % 2 ^ 32
      activeThreads := (s.activeThreads + 1) % 2 ^ 32 }

/-- `set_thread_terminated` with its `unregister_thread`, of the thread registered as the `i`th. -/
def setThreadTerminated (s : Registry n) (i : ℕ) : Option (Registry n) :=
  match s.threads[i]? with
  | none => none
  | some thread =>
      -- a thread ends once, and not more threads leave the registry than entered it
      if thread.terminated = true ∨ s.activeThreads = 0 then none
      else some { s with
        activeThreads := s.activeThreads - 1
        threads := s.threads.set i { thread with terminated := true } }

inductive Act
  | register (mask : BitVec 32)
  | terminate (i : ℕ)
deriving DecidableEq

def next (s : Registry n) : Act → Option (Registry n)
  | .register mask => s.registerThread mask
  | .terminate i => s.setThreadTerminated i

/-- The registry as `kernel::initialise` leaves it. -/
def boot (n : ℕ) : Registry n := ⟨0, 0, fun _ => 0, []⟩

/-- The threads pinned to a core that have not ended. -/
def live (s : Registry n) (core : Fin n) : ℕ :=
  s.threads.countP fun thread => thread.pinnedCore = core ∧ thread.terminated = false

/-- The threads that were pinned to a core and have ended. -/
def ended (s : Registry n) (core : Fin n) : ℕ :=
  s.threads.countP fun thread => thread.pinnedCore = core ∧ thread.terminated = true

/-! ### The loop -/

/-- What the loop knows of the cores it has seen. -/
structure Leads (mask : BitVec 32) (load : Fin n → ℕ) (seen : List (Fin n)) (best : Best n) :
    Prop where
  least : ∀ core ∈ seen, allows mask core = true → best.load ≤ load core
  bound : best.load ≤ 2 ^ 32 - 1
  full : best.core = none → best.load = 2 ^ 32 - 1
  found : ∀ core, best.core = some core → allows mask core = true ∧ load core = best.load ∧
    core ∈ seen ∧ load core < 2 ^ 32 - 1 ∧
    ∀ other ∈ seen, allows mask other = true → load other = load core → core ≤ other

theorem Leads.consider {mask : BitVec 32} {load : Fin n → ℕ} {seen : List (Fin n)} {best : Best n}
    {core : Fin n} (h : Leads mask load seen best) (hafter : ∀ other ∈ seen, other < core) :
    Leads mask load (seen ++ [core]) (Registry.consider mask load best core) := by
  have hmem : ∀ other, other ∈ seen ++ [core] → other ∈ seen ∨ other = core := by
    intro other hother
    simpa using hother
  by_cases hc : allows mask core = true ∧ load core < best.load
  · have hstep : Registry.consider mask load best core = ⟨some core, load core⟩ := if_pos hc
    rw [hstep]
    have hbound := h.bound
    refine ⟨?_, ?_, ?_, ?_⟩
    · intro other hother hallowed
      show load core ≤ load other
      rcases hmem other hother with hseen | rfl
      · have := h.least other hseen hallowed
        omega
      · exact Nat.le_refl _
    · show load core ≤ 2 ^ 32 - 1
      omega
    · intro hnone
      cases hnone
    · intro chosen hchosen
      obtain rfl : core = chosen := Option.some.inj hchosen
      refine ⟨hc.1, rfl, by simp, by omega, ?_⟩
      intro other hother hallowed heq
      rcases hmem other hother with hseen | rfl
      · -- the cores before it had the old best load or more
        have := h.least other hseen hallowed
        omega
      · exact le_refl _
  · have hstep : Registry.consider mask load best core = best := if_neg hc
    rw [hstep]
    refine ⟨?_, h.bound, h.full, ?_⟩
    · intro other hother hallowed
      rcases hmem other hother with hseen | rfl
      · exact h.least other hseen hallowed
      · exact Nat.le_of_not_lt fun hlt => hc ⟨hallowed, hlt⟩
    · intro chosen hchosen
      obtain ⟨hallowed, hload, hseen, hlt, hfirst⟩ := h.found chosen hchosen
      refine ⟨hallowed, hload, List.mem_append_left _ hseen, hlt, ?_⟩
      intro other hother hok heq
      rcases hmem other hother with hbefore | rfl
      · exact hfirst other hbefore hok heq
      · exact le_of_lt (hafter chosen hseen)

theorem Leads.foldl {mask : BitVec 32} {load : Fin n → ℕ} {seen rest : List (Fin n)} {best : Best n}
    (h : Leads mask load seen best) (hsorted : (seen ++ rest).Pairwise (· < ·)) :
    Leads mask load (seen ++ rest) (rest.foldl (Registry.consider mask load) best) := by
  induction rest generalizing seen best with
  | nil => simpa using h
  | cons core rest ih =>
      have hsorted' : ((seen ++ [core]) ++ rest).Pairwise (· < ·) := by simpa using hsorted
      have hafter : ∀ other ∈ seen, other < core := by
        intro other hother
        exact (List.pairwise_append.1 hsorted).2.2 other hother core List.mem_cons_self
      have := ih (h.consider hafter) hsorted'
      simpa using this

theorem leads_finRange (mask : BitVec 32) (load : Fin n → ℕ) :
    Leads mask load (List.finRange n)
      ((List.finRange n).foldl (consider mask load) ⟨none, 2 ^ 32 - 1⟩) := by
  have hstart : Leads mask load [] ⟨none, 2 ^ 32 - 1⟩ := by
    refine ⟨?_, Nat.le_refl _, fun _ => rfl, ?_⟩
    · intro core hcore
      cases hcore
    · intro core hcore
      cases hcore
  exact hstart.foldl (List.pairwise_lt_finRange n)

/-- **The loop takes the lowest of the least loaded allowed cores.** -/
theorem pinThreadToCore_eq_some {mask : BitVec 32} {load : Fin n → ℕ} {core : Fin n}
    (h : pinThreadToCore mask load = some core) :
    allows mask core = true ∧ load core < 2 ^ 32 - 1 ∧
      ∀ other, allows mask other = true →
        load core < load other ∨ load core = load other ∧ core ≤ other := by
  have hleads := leads_finRange mask load
  obtain ⟨hallowed, hload, -, hlt, hfirst⟩ := hleads.found core h
  refine ⟨hallowed, hlt, ?_⟩
  intro other hother
  have hleast := hleads.least other (List.mem_finRange other) hother
  rw [← hload] at hleast
  rcases Nat.lt_or_eq_of_le hleast with h' | h'
  · exact Or.inl h'
  · exact Or.inr ⟨h', hfirst other (List.mem_finRange other) hother h'.symm⟩

/-- It finds one as soon as an allowed core's counter is not at its end. -/
theorem pinThreadToCore_isSome {mask : BitVec 32} {load : Fin n → ℕ} {core : Fin n}
    (hallowed : allows mask core = true) (hload : load core < 2 ^ 32 - 1) :
    (pinThreadToCore mask load).isSome := by
  have hleads := leads_finRange mask load
  cases hcore : pinThreadToCore mask load with
  | some found => rfl
  | none =>
      have hfull := hleads.full hcore
      have hleast := hleads.least core (List.mem_finRange core) hallowed
      omega

/-! ### What the counters count -/

/-- **A counter is the number of the threads that were ever pinned to its core.** -/
structure Counted (s : Registry n) : Prop where
  counter : ∀ core, s.counter core = s.live core + s.ended core
  small : ∀ core, s.counter core ≤ 2 ^ 32 - 1

theorem counted_boot : Counted (boot n) := ⟨fun _ => rfl, fun _ => Nat.zero_le _⟩

theorem registerThread_eq_some {s t : Registry n} {mask : BitVec 32}
    (h : s.registerThread mask = some t) :
    ∃ core, pinThreadToCore mask s.counter = some core ∧
      t.counter = Function.update s.counter core ((s.counter core + 1) % 2 ^ 32) ∧
      t.threads = s.threads ++ [⟨s.idGenerator, mask, core, false⟩] := by
  obtain ⟨core, hcore, rfl⟩ := Option.map_eq_some_iff.1 h
  exact ⟨core, hcore, rfl, rfl⟩

theorem setThreadTerminated_eq_some {s t : Registry n} {i : ℕ}
    (h : s.setThreadTerminated i = some t) :
    ∃ thread, s.threads[i]? = some thread ∧ thread.terminated = false ∧ t.counter = s.counter ∧
      t.threads = s.threads.set i { thread with terminated := true } := by
  unfold setThreadTerminated at h
  cases hthread : s.threads[i]? with
  | none => simp [hthread] at h
  | some thread =>
      simp only [hthread] at h
      split at h
      · cases h
      · next hok =>
          obtain rfl := Option.some.inj h
          exact ⟨thread, rfl, by simpa using fun hend => hok (Or.inl hend), rfl, rfl⟩

theorem live_register {s t : Registry n} {mask : BitVec 32} {core : Fin n}
    (h : t.threads = s.threads ++ [⟨s.idGenerator, mask, core, false⟩]) (c : Fin n) :
    t.live c = s.live c + if core = c then 1 else 0 := by
  simp [live, h, List.countP_append, List.countP_singleton]

theorem ended_register {s t : Registry n} {mask : BitVec 32} {core : Fin n}
    (h : t.threads = s.threads ++ [⟨s.idGenerator, mask, core, false⟩]) (c : Fin n) :
    t.ended c = s.ended c := by
  simp [ended, h, List.countP_append]

/-- The end of a thread moves it from the live threads of its core to the ended ones. -/
theorem live_add_ended_terminate {s t : Registry n} {i : ℕ} {thread : Registered n}
    (hthread : s.threads[i]? = some thread) (hlive : thread.terminated = false)
    (h : t.threads = s.threads.set i { thread with terminated := true }) (c : Fin n) :
    t.live c + t.ended c = s.live c + s.ended c := by
  obtain ⟨hi, hget⟩ := List.getElem?_eq_some_iff.1 hthread
  by_cases hc : thread.pinnedCore = c
  · have hp : 0 < s.live c := by
      apply List.countP_pos_iff.2
      exact ⟨thread, hget ▸ List.getElem_mem hi, by simp [hc, hlive]⟩
    simp only [live, ended, h, List.countP_set hi, hget, hc, hlive] at hp ⊢
    simp only [true_and, decide_true, if_true, Bool.false_eq_true, decide_false, if_false,
      Bool.true_eq_false]
    omega
  · simp [live, ended, h, List.countP_set hi, hget, hc]

theorem Counted.next {s t : Registry n} {a : Act} (hs : Counted s) (h : s.next a = some t) :
    Counted t := by
  cases a with
  | register mask =>
      obtain ⟨core, hcore, hcounter, hthreads⟩ := registerThread_eq_some h
      obtain ⟨-, hlt, -⟩ := pinThreadToCore_eq_some hcore
      -- the loop never takes a core whose counter would wrap
      have hmod : (s.counter core + 1) % 2 ^ 32 = s.counter core + 1 := Nat.mod_eq_of_lt (by omega)
      rw [hmod] at hcounter
      have hat : ∀ c, t.counter c = s.counter c + if core = c then 1 else 0 := by
        intro c
        rw [hcounter]
        by_cases hc : core = c
        · subst hc
          rw [Function.update_self, if_pos rfl]
        · rw [Function.update_of_ne (Ne.symm hc), if_neg hc, Nat.add_zero]
      refine ⟨?_, ?_⟩
      · intro c
        rw [hat, live_register hthreads, ended_register hthreads, hs.counter]
        omega
      · intro c
        rw [hat]
        have := hs.small c
        by_cases hc : core = c
        · subst hc
          rw [if_pos rfl]
          omega
        · rw [if_neg hc]
          exact this
  | terminate i =>
      obtain ⟨thread, hthread, hlive, hcounter, hthreads⟩ := setThreadTerminated_eq_some h
      refine ⟨?_, ?_⟩
      · intro c
        rw [hcounter, hs.counter, live_add_ended_terminate hthread hlive hthreads]
      · intro c
        rw [hcounter]
        exact hs.small c

/-! ### Balance -/

/-- At a registration, no thread that was pinned to a core the new thread may take has ended. -/
def NoneEnded (s : Registry n) : Act → Prop
  | .register mask => ∀ core, allows mask core = true → s.ended core = 0
  | .terminate _ => True

instance (s : Registry n) (a : Act) : Decidable (NoneEnded s a) :=
  match a with
  | .register mask => inferInstanceAs (Decidable (∀ core, allows mask core = true → s.ended core = 0))
  | .terminate _ => isTrue trivial

/-- **Pinning balances the live load.**  In every run of registrations and ends of threads in which
each registration finds that no thread pinned to a core it allows has ended, the thread is pinned to
an allowed core; the load read of every allowed core is the number of its live threads; and the core
taken is the lowest of those with the fewest.  The registration is refused only when the mask allows
no core with fewer than `2 ^ 32 - 1` live threads. -/
theorem pinning_balances {as : List Act} {mask : BitVec 32} {s : Registry n}
    (h : run next (boot n) as = some s)
    (hok : Meets next NoneEnded (boot n) (as ++ [.register mask])) :
    (∀ core, allows mask core = true → s.counter core = s.live core) ∧
    (∀ t, s.next (.register mask) = some t →
      ∃ core, t.threads = s.threads ++ [⟨s.idGenerator, mask, core, false⟩] ∧
        allows mask core = true ∧
        ∀ other, allows mask other = true →
          s.live core < s.live other ∨ s.live core = s.live other ∧ core ≤ other) ∧
    ((∃ core, allows mask core = true ∧ s.live core < 2 ^ 32 - 1) →
      (s.next (.register mask)).isSome) := by
  have hcounted : Counted s :=
    run_invariant (fun _ _ _ hs hstep => Counted.next hs hstep) counted_boot h
  have hnone : ∀ core, allows mask core = true → s.ended core = 0 :=
    ((meets_append h).1 hok).2.1
  have hload : ∀ core, allows mask core = true → s.counter core = s.live core := by
    intro core hcore
    rw [hcounted.counter, hnone core hcore, Nat.add_zero]
  refine ⟨hload, ?_, ?_⟩
  · intro t ht
    obtain ⟨core, hcore, -, hthreads⟩ := registerThread_eq_some ht
    obtain ⟨hallowed, -, hleast⟩ := pinThreadToCore_eq_some hcore
    refine ⟨core, hthreads, hallowed, ?_⟩
    intro other hother
    rw [← hload core hallowed, ← hload other hother]
    exact hleast other hother
  · rintro ⟨core, hallowed, hlt⟩
    rw [← hload core hallowed] at hlt
    show (s.registerThread mask).isSome
    rw [registerThread, Option.isSome_map]
    exact pinThreadToCore_isSome hallowed hlt

/-- Two threads for any of two cores, and a third: it joins the first, the lower of two cores with one
thread each. -/
theorem pinning_balances_third :
    ∃ s : Registry 2, run next (boot 2) [.register 3, .register 3] = some s ∧
      (∀ core, allows 3 core = true → s.counter core = s.live core) ∧
      (s.next (.register 3)).isSome := by
  obtain ⟨s, hs, hlive⟩ := Option.map_eq_some_iff.1
    (show (run next (boot 2) [.register 3, .register 3]).map (fun s => s.live 0) = some 1 by decide +kernel)
  have hok : Meets next NoneEnded (boot 2) ([.register 3, .register 3] ++ [.register 3]) := by
    decide +kernel
  obtain ⟨hload, -, htotal⟩ := pinning_balances hs hok
  exact ⟨s, hs, hload, htotal ⟨0, by decide, by omega⟩⟩

/-- **The counter keeps the ended.**  Two threads of core 0 end and one thread goes to core 1; the
next one may take either core and goes to core 1 beside it, while core 0 has no live thread. -/
theorem pinning_counts_the_ended :
    ∃ s t : Registry 2,
      run next (boot 2)
        [.register 1, .register 1, .terminate 0, .terminate 1, .register 3] = some s ∧
      s.next (.register 3) = some t ∧
      s.live 0 = 0 ∧ s.counter 0 = 2 ∧ s.live 1 = 1 ∧
      (t.threads.getLast?.map Registered.pinnedCore) = some 1 := by
  obtain ⟨s, hs, hlive⟩ := Option.map_eq_some_iff.1
    (show (run next (boot 2)
        [.register 1, .register 1, .terminate 0, .terminate 1, .register 3]).map
        (fun s => (s.live 0, s.counter 0, s.live 1,
          (s.next (.register 3)).map fun t => t.threads.getLast?.map Registered.pinnedCore)) =
        some (0, 2, 1, some (some 1)) by decide +kernel)
  obtain ⟨h0, hrest⟩ := Prod.mk.inj hlive
  obtain ⟨hc, hrest⟩ := Prod.mk.inj hrest
  obtain ⟨h1, hlast⟩ := Prod.mk.inj hrest
  obtain ⟨t, ht, hcore⟩ := Option.map_eq_some_iff.1 hlast
  exact ⟨s, t, hs, ht, h0, hc, h1, hcore⟩

end Registry

end Cyros.Kernel
