import Cyros.Time.Simulation

/-!
# Cancelling a simulated timer

The `Ledger` of the simulation driver: each timer is in one place, a table or in the hands of a pump, and what the
history says of it agrees with where it is.  A recurring timer stays in its table while pumps have it in hand, and
this is where a cancel can come too late.  `DueOk` says where the one-shots are that an advance owes.

* `cancel_final`: in every `Sound` run a cancel is final, a one-shot runs once and in time, and an advance that
  returns has started what was due.
* `cancel_too_late`: a recurring timer is cancelled between the pass that takes it and the start of its callback, and
  an advance returns while another pump has its one-shot in hand.
-/

namespace Cyros.Time.Simulation

open Cyros.Lib

variable {π τ C A : Type}

/-! ### What the history says -/

/-- The timer that it happened to. -/
def Happened.key : Happened C A → ℕ × ℕ
  | .scheduled e => e.key
  | .cancelled key => key
  | .started e _ => e.key

/-- No callback starts after a cancel that returned true, and that of a one-shot starts once. -/
def Follows (older newer : Happened C A) : Prop :=
  ∀ e t, newer = .started e t →
    older ≠ .cancelled e.key ∧ (e.period = 0 → ∀ e' t', older = .started e' t' → e'.key ≠ e.key)

structure HistoryOk (history : List (Happened C A)) : Prop where
  order : history.Pairwise Follows
  known : ∀ x ∈ history, ∃ e, .scheduled e ∈ history ∧ e.key = x.key
  times : ∀ e t, .started e t ∈ history → e.period = 0 → .scheduled e ∈ history ∧ e.when ≤ t

/-- What is known of a timer that a table holds or a pump has in hand. -/
structure EventOk (history : List (Happened C A)) (e : Event C A) : Prop where
  cb : e.cb ≠ none
  scheduled : ∃ e', .scheduled e' ∈ history ∧ e'.key = e.key
  cancelled : e.cancelled = false → .cancelled e.key ∉ history
  unstarted : e.period = 0 → ∀ e' t, .started e' t ∈ history → e'.key ≠ e.key
  asScheduled : e.period = 0 → e.cancelled = false → .scheduled e ∈ history

section Histories

variable {history : List (Happened C A)} {x : Happened C A} {e : Event C A}

theorem HistoryOk.append (h : HistoryOk history) (hfollows : ∀ a ∈ history, Follows a x)
    (hknown : ∃ e, .scheduled e ∈ history ++ [x] ∧ e.key = x.key)
    (htimes : ∀ e t, x = .started e t → e.period = 0 → .scheduled e ∈ history ∧ e.when ≤ t) :
    HistoryOk (history ++ [x]) := by
  obtain ⟨horder, hall, htime⟩ := h
  refine ⟨List.pairwise_append.2 ⟨horder, List.pairwise_singleton _ _, by grind⟩, ?_, ?_⟩ <;> grind

theorem EventOk.append (h : EventOk history e) (hcancelled : x = .cancelled e.key → e.cancelled = true)
    (hstarted : ∀ e' t, x = .started e' t → e.period = 0 → e'.key ≠ e.key) : EventOk (history ++ [x]) e := by
  obtain ⟨hcb, hscheduled, hlive, honce, has⟩ := h
  constructor <;> grind

end Histories

/-- The table of a core. -/
structure TableOk (history : List (Happened C A)) (flying : List (π × Event C A)) (core : ℕ)
    (es : List (Event C A)) : Prop where
  nodup : (es.map Event.key).Nodup
  core : ∀ e ∈ es, e.key.1 = core
  event : ∀ e ∈ es, EventOk history e
  once : ∀ e ∈ es, e.period = 0 → ∀ x ∈ flying, x.2.key ≠ e.key

section Tables

variable {history : List (Happened C A)} {flying flying' : List (π × Event C A)} {core : ℕ}
  {es es' pre post : List (Event C A)} {e : Event C A}

theorem TableOk.sublist (h : TableOk history flying core es) (hsub : es'.Sublist es) :
    TableOk history flying core es' where
  nodup := h.nodup.sublist (hsub.map _)
  core := fun e he => h.core e (hsub.subset he)
  event := fun e he => h.event e (hsub.subset he)
  once := fun e he => h.once e (hsub.subset he)

/-- The keys around a timer are not its own. -/
theorem TableOk.key_ne (h : TableOk history flying core (pre ++ e :: post)) {x : Event C A}
    (hx : x ∈ pre ++ post) : x.key ≠ e.key := by
  have hnodup := h.nodup
  rw [List.map_append, List.map_cons, List.nodup_middle, List.nodup_cons, ← List.map_append] at hnodup
  intro heq
  exact hnodup.1 (heq ▸ List.mem_map_of_mem hx)

theorem mem_replace {x e' : Event C A} (hx : x ∈ pre ++ e' :: post) : x = e' ∨ x ∈ pre ++ post := by
  grind

theorem sublist_middle : (pre ++ post).Sublist (pre ++ e :: post) :=
  (List.Sublist.refl pre).append (List.sublist_cons_self e post)

/-- Another timer of the same key in the place of one. -/
theorem TableOk.replace (h : TableOk history flying core (pre ++ e :: post)) {e' : Event C A}
    (hkey : e'.key = e.key) (hevent : EventOk history e')
    (honce : e'.period = 0 → ∀ x ∈ flying, x.2.key ≠ e'.key) :
    TableOk history flying core (pre ++ e' :: post) := by
  obtain ⟨hnodup, hcore, hevents, hfly⟩ := h
  constructor <;> grind

/-- One more timer in hand. -/
theorem TableOk.fly (h : TableOk history flying core es) {p : π}
    (hkey : ∀ x ∈ es, x.period = 0 → e.key ≠ x.key) : TableOk history ((p, e) :: flying) core es := by
  have honce := h.once
  exact ⟨h.nodup, h.core, h.event, by grind⟩

theorem TableOk.land (h : TableOk history flying core es) (hsub : ∀ x ∈ flying', x ∈ flying) :
    TableOk history flying' core es :=
  ⟨h.nodup, h.core, h.event, fun x hx honce y hy => h.once x hx honce y (hsub y hy)⟩

theorem tableOk_update {events : ℕ → List (Event C A)} (hthis : TableOk history flying core es)
    (hothers : ∀ c, c ≠ core → TableOk history flying c (events c)) (c : ℕ) :
    TableOk history flying c (Function.update events core es c) := by
  grind

theorem TableOk.append_history (h : TableOk history flying core es) {x : Happened C A}
    (hcancelled : ∀ e ∈ es, x = .cancelled e.key → e.cancelled = true)
    (hstarted : ∀ e ∈ es, ∀ e' t, x = .started e' t → e.period = 0 → e'.key ≠ e.key) :
    TableOk (history ++ [x]) flying core es :=
  ⟨h.nodup, h.core, fun e he => (h.event e he).append (hcancelled e he) (hstarted e he), h.once⟩

end Tables

namespace Driver

/-- The timer a pump has in hand. -/
def taken (S : Driver π τ C A) (p : π) : Option (Event C A) :=
  match S.pump p with
  | .took _ _ _ e => some e
  | _ => none

/-- The key a schedule has claimed. -/
def claimed (S : Driver π τ C A) (t : τ) : Option (ℕ × ℕ) :=
  match S.call t with
  | .claimed key _ _ _ _ => some key
  | _ => none

/-- A timer in hand.  A one-shot has left its table. -/
structure FlyingOk (S : Driver π τ C A) (x : π × Event C A) : Prop where
  event : EventOk S.history x.2
  live : x.2.cancelled = false
  when : x.2.when ≤ S.now
  once : x.2.period = 0 → ∀ y ∈ S.flying, y.2.key = x.2.key → y = x
  gone : x.2.period = 0 → ∀ c, ∀ e ∈ S.events c, e.key ≠ x.2.key

structure ClaimOk (S : Driver π τ C A) (t : τ) (k : ℕ × ℕ) : Prop where
  issued : k.2 < S.issued k.1
  own : ∀ t', S.claimed t' = some k → t' = t
  new : ∀ e, .scheduled e ∈ S.history → e.key ≠ k

/-- **Where the timers are.** -/
structure Ledger (S : Driver π τ C A) : Prop where
  claims : ∀ t k, S.claimed t = some k → S.ClaimOk t k
  issued : ∀ e, .scheduled e ∈ S.history → e.key.2 < S.issued e.key.1
  table : ∀ c, TableOk S.history S.flying c (S.events c)
  flying : ∀ x ∈ S.flying, S.FlyingOk x
  held : ∀ p e, (p, e) ∈ S.flying ↔ S.taken p = some e
  history : HistoryOk S.history

/-- A one-shot that an advance owes is in a table that the pump has still to go through, or in hand. -/
def Pending (cores : ℕ) (S : Driver π τ C A) (goal core : ℕ) (k : ℕ × ℕ) : Prop :=
  (∃ c, core ≤ c ∧ c < cores ∧ ∃ e ∈ S.events c, e.key = k ∧ isDue goal e = true ∧ e.period = 0) ∨
    ∃ x ∈ S.flying, x.2.key = k ∧ x.2.period = 0 ∧ x.2.when ≤ goal

/-- A pump at the table of a core. -/
structure PassOk (cores : ℕ) (S : Driver π τ C A) (p : π) (goal core now : ℕ) : Prop where
  reached : goal ≤ now
  past : now ≤ S.now
  due : ∀ k ∈ S.due p, S.Pending cores goal core k

def DueOk (cores : ℕ) (S : Driver π τ C A) (p : π) : Prop :=
  match S.pump p with
  | .out => S.due p = []
  | .loaded _ => S.due p = []
  | .entered goal => S.PassOk cores p goal 0 S.now
  | .pass goal core now => S.PassOk cores p goal core now
  | .took goal core now _ => S.PassOk cores p goal core now
  | .running goal core now => S.PassOk cores p goal core now

structure Inv (cores : ℕ) (S : Driver π τ C A) : Prop where
  ledger : S.Ledger
  due : ∀ p, S.DueOk cores p

theorem inv_boot (cores now : ℕ) : Inv cores (boot now : Driver π τ C A) where
  ledger := by
    refine ⟨?_, ?_, fun c => ⟨List.nodup_nil, ?_, ?_, ?_⟩, ?_, ?_, ⟨List.Pairwise.nil, ?_, ?_⟩⟩ <;>
      simp [boot, taken, claimed]
  due := fun _ => rfl

variable {S S' : Driver π τ C A} {cores : ℕ}

/-! ### The ledger, step by step -/

/-- A step that moves no timer. -/
theorem Ledger.congr (h : S.Ledger) (hevents : S'.events = S.events) (hflying : S'.flying = S.flying)
    (htaken : S'.taken = S.taken) (hclaimed : S'.claimed = S.claimed) (hissued : S'.issued = S.issued)
    (hhistory : S'.history = S.history) (hnow : S.now ≤ S'.now) : S'.Ledger := by
  obtain ⟨hclaims, hissue, htable, hfly, hheld, hhist⟩ := h
  refine ⟨fun t k hk => ?_, by rwa [hhistory, hissued], by rwa [hhistory, hflying, hevents], fun x hx => ?_,
    by rwa [hflying, htaken], by rwa [hhistory]⟩
  · rw [hclaimed] at hk
    obtain ⟨hless, hown, hnew⟩ := hclaims t k hk
    exact ⟨by rwa [hissued], by rwa [hclaimed], by rwa [hhistory]⟩
  · rw [hflying] at hx
    obtain ⟨hevent, hlive, hwhen, honce, hgone⟩ := hfly x hx
    exact ⟨by rwa [hhistory], hlive, hwhen.trans hnow, by rwa [hflying], by rwa [hevents]⟩

/-- The claims stand where something else than a schedule is added to the history. -/
theorem ClaimOk.congr {t : τ} {k : ℕ × ℕ} (h : S.ClaimOk t k) (hissued : S'.issued = S.issued)
    (hclaimed : S'.claimed = S.claimed)
    (hhistory : ∀ e, .scheduled e ∈ S'.history → .scheduled e ∈ S.history) : S'.ClaimOk t k := by
  obtain ⟨hless, hown, hnew⟩ := h
  exact ⟨by rwa [hissued], by rwa [hclaimed], fun e he => hnew e (hhistory e he)⟩

section Claims

variable [DecidableEq τ]

/-- An id is claimed. -/
theorem Ledger.claim (h : S.Ledger) (t : τ) (core : ℕ) (place : ℕ → ℕ × ℕ → CallPlace C A)
    (hplace : ∀ id key, (∃ wish cb arg, place id key = .again core wish cb arg) ∨
      ∃ wish cb arg, place id key = .claimed key id wish cb arg) : (S.claim t core place).Ledger := by
  obtain ⟨hclaims, hissued, htable, hfly, hheld, hhistory⟩ := h
  have hself : ∀ k, (S.claim t core place).claimed t = some k → k = (core, S.issued core) := by
    have := hplace (S.nextId core) (core, S.issued core)
    grind [Driver.claimed]
  have hother : ∀ t', t' ≠ t → (S.claim t core place).claimed t' = S.claimed t' := by
    grind [Driver.claimed]
  -- the key that is claimed is larger than all that were
  have hnew : ∀ t', S.claimed t' ≠ some (core, S.issued core) := by
    intro t' hk
    exact absurd (hclaims t' _ hk).issued (lt_irrefl _)
  refine ⟨fun t' k hk => ?_, by grind, htable, fun x hx => ?_, hheld, hhistory⟩
  · by_cases ht' : t' = t
    · subst ht'
      cases hself k hk
      constructor <;> grind
    · rw [hother t' ht'] at hk
      obtain ⟨hless, hown, hknown⟩ := hclaims t' k hk
      constructor <;> grind
  · obtain ⟨hevent, hlive, hwhen, honce, hgone⟩ := hfly x hx
    exact ⟨hevent, hlive, hwhen, honce, hgone⟩

/-- A timer is pushed. -/
theorem Ledger.push (h : S.Ledger) {t : τ} {key : ℕ × ℕ} {id : ℕ} {wish : Wish} {cb : C} {arg : A}
    (hcall : S.call t = .claimed key id wish cb arg) :
    Ledger { S with
      events := Function.update S.events key.1 (S.events key.1 ++ [S.pushed key id wish cb arg])
      call := Function.update S.call t .idle
      history := S.history ++ [.scheduled (S.pushed key id wish cb arg)] } := by
  obtain ⟨hless, hown, hunused⟩ := h.claims t key (by rw [Driver.claimed, hcall])
  have hkey : (S.pushed key id wish cb arg).key = key := by cases wish <;> rfl
  have hcb : (S.pushed key id wish cb arg).cb ≠ none := by cases wish <;> simp [Driver.pushed]
  generalize S.pushed key id wish cb arg = e at hkey hcb ⊢
  obtain ⟨hclaims, hissued, htable, hfly, hheld, hhistory⟩ := h
  -- nothing has happened to it so far
  have hnew : ∀ x ∈ S.history, x.key ≠ key := by
    intro x hx heq
    obtain ⟨e₀, he₀, hk₀⟩ := hhistory.known x hx
    exact hunused e₀ he₀ (hk₀.trans heq)
  have hunknown : ∀ e', EventOk S.history e' → e'.key ≠ key := by
    rintro e' ⟨-, ⟨e₀, he₀, hk₀⟩, -⟩ heq
    exact hunused e₀ he₀ (hk₀.trans heq)
  have hkept : ∀ c, TableOk (S.history ++ [.scheduled e]) S.flying c (S.events c) := fun c =>
    (htable c).append_history (by simp) (by simp)
  have hclaimed : ∀ t' k, Driver.claimed { S with call := Function.update S.call t .idle } t' = some k →
      t' ≠ t ∧ S.claimed t' = some k := by
    unfold Driver.claimed
    grind
  have hevent : EventOk (S.history ++ [.scheduled e]) e := by constructor <;> grind [Happened.key]
  refine ⟨fun t' k hk => ?_, by grind, ?_, fun x hx => ?_, hheld, ?_⟩
  · obtain ⟨ht', hk'⟩ := hclaimed t' k hk
    obtain ⟨hless', hown', hunused'⟩ := hclaims t' k hk'
    exact ⟨hless', fun t'' hk'' => hown' t'' (hclaimed t'' k hk'').2, by grind⟩
  · refine tableOk_update ?_ fun c _ => hkept c
    obtain ⟨hnodup, hcore, hevents, honce⟩ := hkept key.1
    have hfree : ∀ e' ∈ S.events key.1, e'.key ≠ key := fun e' he' =>
      hunknown e' ((htable key.1).event e' he')
    refine ⟨by grind, by grind, by grind, fun e' he' hzero x hx => ?_⟩
    have := hunknown x.2 (hfly x hx).event
    grind
  · obtain ⟨hevent', hlive, hwhen, honce, hgone⟩ := hfly x hx
    have := hunknown x.2 hevent'
    exact ⟨hevent'.append (by simp) (by simp), hlive, hwhen, honce, by grind⟩
  · exact hhistory.append (by simp [Follows]) ⟨e, by simp, rfl⟩ (by simp)

end Claims

/-- **A timer is cancelled** that no pump has in hand. -/
theorem Ledger.cancel (h : S.Ledger) {core : ℕ} {pre post : List (Event C A)} {e : Event C A}
    (hevents : S.events core = pre ++ e :: post)
    (hfree : e.period ≠ 0 → ∀ x ∈ S.flying, x.2.key ≠ e.key) :
    Ledger { S.settle e.key with
      events := Function.update S.events core (pre ++ { e with cancelled := true } :: post)
      history := S.history ++ [.cancelled e.key] } := by
  have htable := h.table core
  rw [hevents] at htable
  have hmem : e ∈ pre ++ e :: post := by simp
  have hevent := htable.event e hmem
  have hcore := htable.core e hmem
  have hother := fun x => htable.key_ne (x := x)
  have hflying : ∀ x ∈ S.flying, x.2.key ≠ e.key := by
    by_cases honce : e.period = 0
    · exact htable.once e hmem honce
    · exact hfree honce
  have hscheduled : ∀ e', .scheduled e' ∈ S.history ++ [.cancelled e.key] → .scheduled e' ∈ S.history := by simp
  refine ⟨fun t k hk => (h.claims t k hk).congr rfl rfl hscheduled, fun e' he' => h.issued e' (hscheduled e' he'),
    ?_, fun x hx => ?_, h.held, ?_⟩
  · refine tableOk_update ?_ fun c hc => ?_
    · have hmarked : TableOk S.history S.flying core (pre ++ { e with cancelled := true } :: post) :=
        htable.replace rfl ⟨hevent.cb, hevent.scheduled, by simp, hevent.unstarted, by simp⟩ fun _ => hflying
      exact hmarked.append_history (by grind) (by simp)
    · -- the timers of another core
      have hcores := (h.table c).core
      exact (h.table c).append_history (by grind) (by simp)
  · obtain ⟨hevent', hlive, hwhen, honce, hgone⟩ := h.flying x hx
    have := hflying x hx
    exact ⟨hevent'.append (by grind) (by simp), hlive, hwhen, honce, by grind⟩
  · obtain ⟨e', he', hkey⟩ := hevent.scheduled
    exact h.history.append (by simp [Follows]) ⟨e', List.mem_append_left _ he', hkey⟩ (by simp)

section Pumps

variable [DecidableEq π]

theorem taken_setPump (S : Driver π τ C A) {p : π} {place : PumpPlace C A} (hp : S.taken p = none)
    (hplace : ∀ goal core now e, place ≠ .took goal core now e) : (S.setPump p place).taken = S.taken := by
  funext q
  unfold taken setPump at *
  grind

/-- A pass finds nothing due, and erases what is cancelled. -/
theorem Ledger.sweep (h : S.Ledger) {core : ℕ} {es : List (Event C A)} (hsub : es.Sublist (S.events core))
    {p : π} {place : PumpPlace C A} (hp : S.taken p = none)
    (hplace : ∀ goal core now e, place ≠ .took goal core now e) :
    Ledger { S.setPump p place with events := Function.update S.events core es } := by
  have hsubset := hsub.subset
  refine ⟨fun t k hk => (h.claims t k hk).congr rfl rfl fun _ => id, h.issued,
    tableOk_update ((h.table core).sublist hsub) fun c _ => h.table c, fun x hx => ?_, fun q e => ?_, h.history⟩
  · obtain ⟨hevent, hlive, hwhen, honce, hgone⟩ := h.flying x hx
    exact ⟨hevent, hlive, hwhen, honce, by grind⟩
  · show _ ↔ (S.setPump p place).taken q = some e
    rw [taken_setPump S hp hplace]
    exact h.held q e

/-- What is left of a timer in its table is of the same key and recurs. -/
theorem leftOver_cases {now : ℕ} {e : Event C A} {left : List (Event C A)} (h : leftOver now e = some left) :
    (e.period = 0 ∧ left = []) ∨ ∃ when, e.period ≠ 0 ∧ left = [{ e with when := when }] := by
  unfold leftOver at h
  split at h
  · next honce =>
    cases h
    exact .inl ⟨honce, rfl⟩
  · next hevery =>
    obtain ⟨when, -, hleft⟩ := Option.map_eq_some_iff.1 h
    exact .inr ⟨when, hevery, hleft.symm⟩

/-- **A timer is taken.** -/
theorem Ledger.take (h : S.Ledger) {core now goal : ℕ} {pre post left : List (Event C A)} {e : Event C A}
    (hsub : (pre ++ e :: post).Sublist (S.events core)) (hdue : isDue now e = true) (hnow : now ≤ S.now)
    (hleft : leftOver now e = some left) {p : π} (hp : S.taken p = none) :
    Ledger { S.setPump p (.took goal core now e) with
      events := Function.update S.events core (pre ++ (left ++ post))
      flying := (p, e) :: S.flying } := by
  have hlive : e.cancelled = false ∧ e.when ≤ now := by grind [isDue]
  have htable := (h.table core).sublist hsub
  have hmem : e ∈ pre ++ e :: post := by simp
  have hevent := htable.event e hmem
  have honce := htable.once e hmem
  have hcore := htable.core e hmem
  have hother := fun x => htable.key_ne (x := x)
  have hsubset := hsub.subset
  -- what is in the tables now was there, or is the timer itself, moved on
  have hnew : ∀ c, ∀ e' ∈ Function.update S.events core (pre ++ (left ++ post)) c,
      (e.period ≠ 0 ∧ e'.period ≠ 0 ∧ e'.key = e.key ∧ e ∈ S.events c) ∨
        (e' ∈ S.events c ∧ e'.key ≠ e.key) := by
    intro c e' he'
    by_cases hc : c = core
    · rw [hc, Function.update_self] at he'
      rw [hc]
      rcases leftOver_cases hleft with ⟨-, rfl⟩ | ⟨when, hevery, rfl⟩
      · exact .inr ⟨hsubset (sublist_middle.subset he'), hother e' he'⟩
      · rcases mem_replace he' with rfl | hold
        · exact .inl ⟨hevery, hevery, rfl, hsubset hmem⟩
        · exact .inr ⟨hsubset (sublist_middle.subset hold), hother e' hold⟩
    · rw [Function.update_of_ne hc] at he'
      refine .inr ⟨he', fun heq => hc ?_⟩
      rw [← (h.table c).core e' he', heq, hcore]
  refine ⟨fun t k hk => (h.claims t k hk).congr rfl rfl fun _ => id, h.issued, fun c => ?_, fun x hx => ?_,
    fun q e' => ?_, h.history⟩
  · refine TableOk.fly (tableOk_update ?_ (fun c _ => h.table c) c) fun e' he' hzero => ?_
    · rcases leftOver_cases hleft with ⟨-, rfl⟩ | ⟨when, hevery, rfl⟩
      · exact htable.sublist sublist_middle
      · exact htable.replace rfl ⟨hevent.cb, hevent.scheduled, hevent.cancelled, fun hzero => absurd hzero hevery,
          fun hzero => absurd hzero hevery⟩ fun hzero => absurd hzero hevery
    · have := hnew c e' he'
      grind
  · rcases List.mem_cons.1 hx with rfl | hold
    · exact ⟨hevent, hlive.1, hlive.2.trans hnow, by grind, by grind⟩
    · obtain ⟨hevent', hlive', hwhen, honce', hgone⟩ := h.flying x hold
      have := hgone
      exact ⟨hevent', hlive', hwhen, by grind, by grind⟩
  · have hheld := h.held q e'
    unfold taken at hheld hp ⊢
    by_cases hq : q = p
    · subst hq
      have hnone : (q, e') ∉ S.flying := by grind
      simp [setPump, hnone, eq_comm]
    · simp only [setPump, Function.update_of_ne hq]
      simpa [hq] using hheld

/-- **A callback starts.** -/
theorem Ledger.start (h : S.Ledger) {goal core now : ℕ} {e : Event C A} {p : π}
    (hp : S.pump p = .took goal core now e) :
    Ledger { Driver.settle { S.setPump p (.running goal core now) with
        flying := S.flying.filter (·.1 ≠ p) } e.key with
      history := S.history ++ [.started e S.now] } := by
  have hflies : (p, e) ∈ S.flying := by
    rw [h.held, taken, hp]
  obtain ⟨hevent, hlive, hwhen, -, -⟩ := h.flying _ hflies
  have hscheduled : ∀ e', .scheduled e' ∈ S.history ++ [.started e S.now] → .scheduled e' ∈ S.history := by simp
  have hrest : ∀ x ∈ S.flying.filter (·.1 ≠ p), x ∈ S.flying ∧ x.1 ≠ p := by simp
  refine ⟨fun t k hk => (h.claims t k hk).congr rfl rfl hscheduled, fun e' he' => h.issued e' (hscheduled e' he'),
    fun c => ?_, fun x hx => ?_, fun q e' => ?_, ?_⟩
  · have honce := (h.table c).once
    exact ((h.table c).land fun x hx => (hrest x hx).1).append_history (by simp) (by grind)
  · obtain ⟨hx, hne⟩ := hrest x hx
    obtain ⟨hevent', hlive', hwhen', honce', hgone⟩ := h.flying x hx
    exact ⟨hevent'.append (by simp) (by grind), hlive', hwhen',
      fun hzero y hy => honce' hzero y (hrest y hy).1, hgone⟩
  · have hheld := h.held q e'
    unfold taken at hheld ⊢
    by_cases hq : q = p
    · subst hq
      simp [setPump, Driver.settle]
    · simp only [setPump, Driver.settle, Function.update_of_ne hq]
      simpa [hq] using hheld
  · obtain ⟨e', he', hkey⟩ := hevent.scheduled
    have hcancelled := hevent.cancelled hlive
    have hunstarted := hevent.unstarted
    have hscheduled := fun honce => hevent.asScheduled honce hlive
    exact h.history.append (by grind [Follows]) ⟨e', List.mem_append_left _ he', hkey⟩ (by grind)

end Pumps

/-! ### What an advance owes -/

theorem PassOk.mono {p : π} {goal core now : ℕ} (h : S.PassOk cores p goal core now) (hnow : S.now ≤ S'.now)
    (hdue : ∀ k ∈ S'.due p, k ∈ S.due p)
    (hpending : ∀ k ∈ S'.due p, S.Pending cores goal core k → S'.Pending cores goal core k) :
    S'.PassOk cores p goal core now :=
  ⟨h.reached, le_trans h.past hnow, fun k hk => hpending k hk (h.due k (hdue k hk))⟩

theorem DueOk.mono {p : π} (h : S.DueOk cores p) (hpump : S'.pump p = S.pump p) (hnow : S.now ≤ S'.now)
    (hdue : ∀ k ∈ S'.due p, k ∈ S.due p)
    (hpending : ∀ goal core, ∀ k ∈ S'.due p, S.Pending cores goal core k → S'.Pending cores goal core k) :
    S'.DueOk cores p := by
  have hnil : S.due p = [] → S'.due p = [] := fun hnil =>
    List.eq_nil_iff_forall_not_mem.2 fun k hk => List.not_mem_nil (hnil ▸ hdue k hk)
  unfold DueOk at h ⊢
  rw [hpump]
  split at h
  · exact hnil h
  · exact hnil h
  · exact ⟨le_trans h.reached hnow, le_refl _, (h.mono hnow hdue (hpending _ _)).due⟩
  all_goals exact h.mono hnow hdue (hpending _ _)

/-- Nothing that an advance owes is moved. -/
theorem DueOk.congr {p : π} (h : S.DueOk cores p) (hpump : S'.pump p = S.pump p) (hnow : S.now ≤ S'.now)
    (hdue : S'.due p = S.due p) (hevents : S'.events = S.events) (hflying : S'.flying = S.flying) :
    S'.DueOk cores p := by
  refine h.mono hpump hnow (fun k hk => hdue ▸ hk) fun goal core k _ hpending => ?_
  rw [Pending, hevents, hflying]
  exact hpending

theorem owed_pending {goal : ℕ} {k : ℕ × ℕ} (hk : k ∈ S.owed cores goal) : S.Pending cores goal 0 k := by
  rw [owed, List.mem_append] at hk
  rcases hk with hk | hk
  · obtain ⟨c, hc, hk⟩ := List.mem_flatMap.1 hk
    obtain ⟨e, he, hkey⟩ := List.mem_map.1 hk
    rw [List.mem_filter, decide_eq_true_eq] at he
    exact .inl ⟨c, Nat.zero_le c, List.mem_range.1 hc, e, he.1, hkey, he.2.1, he.2.2⟩
  · obtain ⟨e, he, hkey⟩ := List.mem_map.1 hk
    rw [List.mem_filter, decide_eq_true_eq] at he
    obtain ⟨x, hx, rfl⟩ := List.mem_map.1 he.1
    exact .inr ⟨x, hx, hkey, he.2.2, by grind [isDue]⟩

variable [DecidableEq π]

theorem pump_setPump (S : Driver π τ C A) {p q : π} (place : PumpPlace C A) (hq : q ≠ p) :
    (S.setPump p place).pump q = S.pump q :=
  Function.update_of_ne hq ..

theorem pump_setPump_self (S : Driver π τ C A) (p : π) (place : PumpPlace C A) :
    (S.setPump p place).pump p = place :=
  Function.update_self ..

/-- A pump moves, and no timer does. -/
theorem Inv.move (h : S.Inv cores) {p : π} {place : PumpPlace C A} (hp : S.taken p = none)
    (hplace : ∀ goal core now e, place ≠ .took goal core now e)
    (hdue : (S.setPump p place).DueOk cores p) : (S.setPump p place).Inv cores where
  ledger := h.ledger.congr rfl rfl (taken_setPump S hp hplace) rfl rfl rfl (le_refl _)
  due := by
    intro q
    by_cases hq : q = p
    · subst hq
      exact hdue
    · exact (h.due q).congr (pump_setPump S place hq) (le_refl _) rfl rfl rfl

/-- **A pass over the table of a core.** -/
theorem Inv.look (h : S.Inv cores) {p : π} {goal core now : ℕ} (hp : S.pump p = .pass goal core now)
    (hlook : S.look cores p goal core now = some S') : S'.Inv cores := by
  have hpass := h.due p
  rw [DueOk, hp] at hpass
  have hnone : S.taken p = none := by rw [taken, hp]
  obtain ⟨-, hlook⟩ := Option.ite_none_right_eq_some.1 hlook
  have hsub : ((S.events core).filter fun e => !e.cancelled).Sublist (S.events core) := List.filter_sublist
  have hkeeps : ∀ e ∈ S.events core, ∀ goal, isDue goal e = true →
      e ∈ (S.events core).filter fun e => !e.cancelled := by grind [isDue]
  dsimp only at hlook
  split at hlook
  · next hfirst =>
    cases hlook
    have hnothing := firstWith_none hfirst
    refine ⟨h.ledger.sweep hsub hnone (by simp), fun q => ?_⟩
    by_cases hq : q = p
    · subst hq
      rw [DueOk]
      simp only [pump_setPump_self]
      refine ⟨hpass.reached, hpass.past, fun k hk => ?_⟩
      rcases hpass.due k hk with ⟨c, hle, hlt, e, he, hkey, hdue, honce⟩ | hfly
      · -- nothing was due in the table of this core, so it is in that of a later one
        have hc : c ≠ core := by
          rintro rfl
          have hfalse := hnothing e (hkeeps e he goal hdue)
          have hreached := hpass.reached
          grind [isDue]
        exact .inl ⟨c, by omega, hlt, e, by grind, hkey, hdue, honce⟩
      · exact .inr hfly
    · -- a table without what is cancelled has what is pending
      refine (h.due q).mono (pump_setPump S _ hq) (le_refl _) (fun _ => id) fun g c k _ hpend => ?_
      rcases hpend with ⟨c', hle, hlt, e, he, hkey, hdue, honce⟩ | hfly
      · exact .inl ⟨c', hle, hlt, e, by grind, hkey, hdue, honce⟩
      · exact .inr hfly
  · next pre e post hfirst =>
    obtain ⟨left, hleft, rfl⟩ := Option.map_eq_some_iff.1 hlook
    obtain ⟨hes, hdue⟩ := firstWith_some hfirst
    rw [hes] at hsub hkeeps
    -- what is pending stays, or it is what is taken
    have hpending : ∀ g c k, S.Pending cores g c k →
        Pending cores { S.setPump p (.took goal core now e) with
          events := Function.update S.events core (pre ++ (left ++ post))
          flying := (p, e) :: S.flying } g c k := by
      intro g c k hpend
      rcases hpend with ⟨c', hle, hlt, e', he', hkey, hdue', honce⟩ | ⟨x, hx, hrest⟩
      · by_cases htaken : e' = e
        · subst htaken
          exact .inr ⟨(p, e'), List.mem_cons_self .., hkey, honce, by grind [isDue]⟩
        · exact .inl ⟨c', hle, hlt, e', by grind, hkey, hdue', honce⟩
      · exact .inr ⟨x, List.mem_cons_of_mem _ hx, hrest⟩
    refine ⟨h.ledger.take hsub hdue hpass.past hleft hnone, fun q => ?_⟩
    by_cases hq : q = p
    · subst hq
      rw [DueOk]
      simp only [pump_setPump_self]
      exact hpass.mono (le_refl _) (fun _ => id) fun k _ => hpending _ _ k
    · exact (h.due q).mono (pump_setPump S _ hq) (le_refl _) (fun _ => id) fun g c k _ => hpending g c k

/-- **The callback starts** of what a pump has in hand. -/
theorem Inv.start (h : S.Inv cores) {p : π} {goal core now : ℕ} {e : Event C A}
    (hp : S.pump p = .took goal core now e) :
    Inv cores { Driver.settle { S.setPump p (.running goal core now) with
        flying := S.flying.filter (·.1 ≠ p) } e.key with
      history := S.history ++ [.started e S.now] } := by
  have hdue : ∀ q k, k ∈ (S.due q).filter (· ≠ e.key) → k ∈ S.due q ∧ k ≠ e.key := by simp
  have hpending : ∀ g c k, k ≠ e.key → S.Pending cores g c k →
      Pending cores { Driver.settle { S.setPump p (.running goal core now) with
          flying := S.flying.filter (·.1 ≠ p) } e.key with
        history := S.history ++ [.started e S.now] } g c k := by
    intro g c k hne hpend
    rcases hpend with htable | ⟨x, hx, hkey, hrest⟩
    · exact .inl htable
    · -- what the pump has in hand is the timer that starts
      have hother : x.1 ≠ p := by
        rintro rfl
        have htaken := (h.ledger.held x.1 x.2).1 hx
        rw [taken, hp] at htaken
        cases htaken
        exact hne hkey.symm
      exact .inr ⟨x, by simpa [Driver.settle] using ⟨hx, hother⟩, hkey, hrest⟩
  refine ⟨h.ledger.start hp, fun q => ?_⟩
  by_cases hq : q = p
  · subst hq
    have hpass := h.due q
    rw [DueOk, hp] at hpass
    unfold DueOk Driver.settle
    simp only [pump_setPump_self]
    exact hpass.mono (le_refl _) (fun k hk => (hdue q k hk).1) fun k hk => hpending _ _ k (hdue q k hk).2
  · exact (h.due q).mono (pump_setPump S _ hq) (le_refl _) (fun k hk => (hdue q k hk).1)
      fun g c k hk => hpending g c k (hdue q k hk).2

omit [DecidableEq π] in
/-- **A cancel** that finds the timer in its table and no pump has in hand. -/
theorem Inv.cancel (h : S.Inv cores) {core : ℕ} {pre post : List (Event C A)} {e : Event C A}
    (hevents : S.events core = pre ++ e :: post)
    (hfree : e.period ≠ 0 → ∀ x ∈ S.flying, x.2.key ≠ e.key) :
    Inv cores { S.settle e.key with
      events := Function.update S.events core (pre ++ { e with cancelled := true } :: post)
      history := S.history ++ [.cancelled e.key] } := by
  refine ⟨h.ledger.cancel hevents hfree, fun q => ?_⟩
  have hdue : ∀ k, k ∈ (S.due q).filter (· ≠ e.key) → k ∈ S.due q ∧ k ≠ e.key := by simp
  refine (h.due q).mono rfl (le_refl _) (fun k hk => (hdue k hk).1) fun g c k hk hpend => ?_
  have hne := (hdue k hk).2
  rcases hpend with ⟨c', hle, hlt, e', he', hkey, hrest⟩ | hfly
  · exact .inl ⟨c', hle, hlt, e', by grind, hkey, hrest⟩
  · exact .inr hfly

variable [DecidableEq τ]

/-- **One step keeps the invariant**, where it is sound. -/
theorem Inv.next {mode : Mode} {act : Act π τ C A} (h : S.Inv cores) (hsound : S.Sound act)
    (hnext : S.next mode cores act = some S') : S'.Inv cores := by
  -- a pump that moves has nothing in hand
  have hmove : ∀ {p place}, S.taken p = none → (∀ goal core now e, place ≠ .took goal core now e) →
      (S.setPump p place).DueOk cores p → (S.setPump p place).Inv cores := h.move
  have hdue := h.due
  unfold DueOk at hdue hmove
  unfold taken at hmove
  cases effect_of_next hnext with
  | idle => exact h
  | @tick ticks =>
    have hle : S.now ≤ S.now + ticks := Nat.le_add_right ..
    exact ⟨h.ledger.congr rfl rfl rfl rfl rfl rfl hle, fun q => (h.due q).congr rfl hle rfl rfl rfl⟩
  | claim hplace =>
    exact ⟨h.ledger.claim _ _ _ hplace, fun q => (h.due q).congr rfl (le_refl _) rfl rfl rfl⟩
  | push hcall =>
    refine ⟨h.ledger.push hcall, fun q => ?_⟩
    refine (h.due q).mono rfl (le_refl _) (fun _ hk => hk) fun g c k _ hpend => ?_
    rcases hpend with ⟨c', hle, hlt, e', he', hrest⟩ | hfly
    · exact .inl ⟨c', hle, hlt, e', by grind, hrest⟩
    · exact .inr hfly
  | cancel hfirst =>
    simp only [Sound, hfirst] at hsound
    exact h.cancel (firstWith_some hfirst).1 hsound
  | @advanceTo p tp hp =>
    have hout := hdue p
    rw [hp] at hout
    refine hmove (by rw [hp]) (by simp) ?_
    rw [pump_setPump_self]
    exact hout
  | @store p target hp =>
    simp only [Sound, hp] at hsound
    refine ⟨h.ledger.congr rfl rfl (taken_setPump S (by rw [taken, hp]) (by simp)) rfl rfl rfl hsound, fun q => ?_⟩
    by_cases hq : q = p
    · subst hq
      rw [DueOk]
      simp only [pump_setPump_self]
      refine ⟨le_refl _, le_refl _, fun k hk => ?_⟩
      simp only [Function.update_self] at hk
      exact owed_pending hk
    · exact (h.due q).congr (pump_setPump S _ hq) hsound (Function.update_of_ne hq ..) rfl rfl
  | @background p hp =>
    have hout := hdue p
    rw [hp] at hout
    refine hmove (by rw [hp]) (by simp) ?_
    rw [pump_setPump_self]
    exact ⟨Nat.zero_le _, le_refl _, fun k hk => absurd (hout ▸ hk : k ∈ []) List.not_mem_nil⟩
  | @readTime p goal hp =>
    have hentered := hdue p
    rw [hp] at hentered
    refine hmove (by rw [hp]) (by simp) ?_
    rw [pump_setPump_self]
    exact hentered.mono (le_refl _) (fun _ hk => hk) fun _ _ hpend => hpend
  | look hp hlook => exact h.look hp hlook
  | start hp _ => exact h.start hp
  | @startNone p goal core now e hp hcb =>
    -- no timer without a callback was scheduled
    have hflies : (p, e) ∈ S.flying := by rw [h.ledger.held, taken, hp]
    exact absurd hcb (h.ledger.flying _ hflies).event.cb
  | @ret p goal core now hp =>
    have hrunning := hdue p
    rw [hp] at hrunning
    refine hmove (by rw [hp]) (by simp) ?_
    rw [pump_setPump_self]
    exact hrunning.mono (le_refl _) (fun _ hk => hk) fun _ _ hpend => hpend
  | @leave p goal now hp =>
    have hpass := hdue p
    rw [hp] at hpass
    simp only [Sound, hp] at hsound
    refine hmove (by rw [hp]) (by simp) ?_
    rw [pump_setPump_self]
    refine List.eq_nil_iff_forall_not_mem.2 fun k hk => ?_
    -- all tables are gone through, and nothing due is in other hands
    rcases hpass.due k hk with ⟨c, hle, hlt, -⟩ | ⟨x, hx, -, honce, hwhen⟩
    · omega
    · exact absurd hwhen (Nat.not_le.2 (hsound x hx honce))

/-- **A cancel is final.**  In every sound run of the driver: no callback starts after a cancel of its timer that
returned true; that of a one-shot starts at most once, and not before the time it was scheduled for; and when an
advance has returned, every one-shot that was due at the time it set has been started or cancelled. -/
theorem cancel_final (mode : Mode) (now : ℕ) (acts : List (Act π τ C A))
    (hmeets : Meets (next mode cores) Sound (boot now) acts)
    (hrun : run (next mode cores) (boot now) acts = some S) :
    S.history.Pairwise Follows ∧
      (∀ e t, .started e t ∈ S.history → e.period = 0 → .scheduled e ∈ S.history ∧ e.when ≤ t) ∧
      ∀ p, S.pump p = .out → S.due p = [] := by
  have hi : Inv cores S := run_invariant_of_meets (I := Inv cores)
    (fun _ _ _ hi hsound h => hi.next hsound h) (inv_boot cores now) hmeets hrun
  refine ⟨hi.ledger.history.order, hi.ledger.history.times, fun p hp => ?_⟩
  have hdue := hi.due p
  rw [DueOk, hp] at hdue
  exact hdue

/-- A one-shot and a recurring timer are due at an advance.  The recurring one is cancelled after it has run. -/
def cancelledAfterRun : List (Act (Fin 2) Unit Unit Unit) :=
  [.schedule () 0 (.once 5) (some ()) (), .push (), .schedule () 0 (.every 3) (some ()) (), .push (),
    .advanceTo 0 7, .store 0, .readTime 0, .look 0, .start 0, .ret 0, .look 0, .start 0, .cancel 0 2, .ret 0,
    .look 0, .leave 0]

theorem cancel_final_cancelledAfterRun :
    ∃ S, run (next .virtualTime 1) (boot 0) cancelledAfterRun = some S ∧
      Meets (next .virtualTime 1) Sound (boot 0) cancelledAfterRun ∧ S.history.length = 5 ∧
      S.history.Pairwise Follows ∧ S.due 0 = [] := by
  have heval : (run (next .virtualTime 1) (boot 0) cancelledAfterRun).map (fun S => (S.history.length, S.pump 0)) =
      some (5, .out) := rfl
  obtain ⟨S, hS, hv⟩ := Option.map_eq_some_iff.mp heval
  simp only [Prod.mk.injEq] at hv
  have hmeets : Meets (next .virtualTime 1) Sound (boot 0) cancelledAfterRun := by decide
  obtain ⟨horder, -, hdue⟩ := cancel_final .virtualTime 0 _ hmeets hS
  exact ⟨S, hS, hmeets, hv.1, horder, hdue 0 hv.2⟩

/-- A pass takes a recurring timer, and it is cancelled before its callback starts. -/
def cancelledInHand : List (Act (Fin 2) Unit Unit Unit) :=
  [.schedule () 0 (.every 3) (some ()) (), .push (), .advanceTo 0 7, .store 0, .readTime 0, .look 0, .cancel 0 1,
    .start 0]

/-- Two advances: the first takes a one-shot, and before it starts the callback the second finds nothing due. -/
def takenByAnother : List (Act (Fin 2) Unit Unit Unit) :=
  [.schedule () 0 (.once 5) (some ()) (), .push (), .advanceTo 0 7, .store 0, .readTime 0, .look 0, .advanceTo 1 7,
    .store 1, .readTime 1, .look 1, .leave 1]

/-- **A cancel that is not final, and an advance that returns too soon.** -/
theorem cancel_too_late :
    (∃ S, run (next .virtualTime 1) (boot 0) cancelledInHand = some S ∧
      S.history.map Happened.key = [(0, 0), (0, 0), (0, 0)] ∧ ¬ S.history.Pairwise Follows) ∧
      ∃ S, run (next .virtualTime 1) (boot 0) takenByAnother = some S ∧ S.pump 1 = .out ∧ S.due 1 = [(0, 0)] := by
  refine ⟨?_, ?_⟩
  · have heval : (run (next .virtualTime 1) (boot 0) cancelledInHand).map (fun S => S.history) =
        some [.scheduled ⟨1, 3, 3, some (), (), false, (0, 0)⟩, .cancelled (0, 0),
          .started ⟨1, 3, 3, some (), (), false, (0, 0)⟩ 7] := rfl
    obtain ⟨S, hS, hv⟩ := Option.map_eq_some_iff.mp heval
    refine ⟨S, hS, by rw [hv]; rfl, fun horder => ?_⟩
    rw [hv, List.pairwise_cons, List.pairwise_cons] at horder
    exact (horder.2.1 _ (List.mem_singleton_self _) _ _ rfl).1 rfl
  · have heval : (run (next .virtualTime 1) (boot 0) takenByAnother).map (fun S => (S.pump 1, S.due 1)) =
        some (.out, [(0, 0)]) := rfl
    obtain ⟨S, hS, hv⟩ := Option.map_eq_some_iff.mp heval
    simp only [Prod.mk.injEq] at hv
    exact ⟨S, hS, hv⟩

end Driver

end Cyros.Time.Simulation
