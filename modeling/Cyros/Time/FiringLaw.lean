import Mathlib.Data.List.Nodup
import Cyros.Time.Timetable

/-!
# The firing law of the time drivers

What holds of each timer, followed by its handle through the reuse of slots: a one-shot's callback runs at
most once, no callback runs before its deadline or after a cancel that returned true, a recurring timer
stays on its grid, nothing runs twice in one interrupt, and an interrupt leaves no one-shot unfired that was
due when it read the time and live until it ended.

The law is that of the table and of the walk, so it holds with any port and for both drivers.  It needs
that no handle id was given out twice and that no deadline overflowed (`unwrapped`).
-/

namespace Cyros.Time

open Cyros.Lib

variable {P C A : Type}

/-! ### The books: the table and the records -/

/-- The timer that a slot holds, against the record of its handle. -/
structure Running (rec : Record C A) (s : Slot C A) : Prop where
  period : rec.period = s.period
  cb : rec.cb = s.cb
  arg : rec.arg = s.arg
  cancelled : rec.cancelled = none
  oneShot : s.period = 0 → rec.ran = []
  grid : ∃ j, s.when = rec.first + j * s.period ∧ rec.ran.length ≤ j

/-- **The law of one timer.** -/
structure Lawful (rec : Record C A) : Prop where
  calls : ∀ (k : ℕ) (call : Call C A), rec.ran[k]? = some call →
    rec.first + k * rec.period ≤ call.time ∧ call.cb = rec.cb ∧ call.arg = rec.arg
  once : rec.period = 0 → rec.ran.length ≤ 1
  cancelled : ∀ n, rec.cancelled = some n → rec.ran.length = n

structure Books (t : Timetable C A) (records : ℕ → Option (Record C A)) : Prop where
  nextId_lt : t.nextId < idSize
  ids : ∀ id rec, records id = some rec → id ≠ 0 ∧ (t.nextId = 0 ∨ id < t.nextId)
  running : ∀ i, (t.slots i).id ≠ 0 → ∃ rec, records (t.slots i).id = some rec ∧ Running rec (t.slots i)
  distinct : ∀ i j, (t.slots i).id ≠ 0 → (t.slots i).id = (t.slots j).id → i = j
  lawful : ∀ id rec, records id = some rec → Lawful rec
  unrun : t.started = false → ∀ id rec, records id = some rec → rec.ran = []
  pended : t.started = false → ∀ i, (t.slots i).id ≠ 0 → (t.slots i).period ≠ 0 → (t.slots i).when = 0

variable {t : Timetable C A} {records : ℕ → Option (Record C A)} {i : Index}

namespace Timetable

@[simp] theorem setSlot_self (t : Timetable C A) (i : Index) (s : Slot C A) : (t.setSlot i s).slots i = s :=
  Function.update_self ..

theorem setSlot_of_ne (t : Timetable C A) {i j : Index} (s : Slot C A) (h : j ≠ i) :
    (t.setSlot i s).slots j = t.slots j :=
  Function.update_of_ne h _ _

theorem findSlot_id {id : ℕ} (h : t.findSlot id = some i) : (t.slots i).id = id := by
  have := List.find?_some h
  simpa using this

theorem nextHandleId_eq (h : t.nextId ≠ 0) :
    t.nextHandleId = (t.nextId, { t with nextId := (t.nextId + 1) % idSize }) := by
  unfold nextHandleId
  rw [if_neg h]

end Timetable

/-- A slot that holds a timer is changed together with the record of its handle; the other slots and the records
of the other handles are untouched. -/
theorem Books.change (h : Books t records) (s : Slot C A) (rec : Record C A) (hlive : (t.slots i).id ≠ 0)
    (hs : s.id ≠ 0 → s.id = (t.slots i).id ∧ Running rec s) (hlawful : Lawful rec)
    (hunrun : t.started = false → rec.ran = [])
    (hpended : t.started = false → s.id ≠ 0 → s.period ≠ 0 → s.when = 0) :
    Books (t.setSlot i s) (Function.update records (t.slots i).id (some rec)) := by
  obtain ⟨hnextId, hids, hrunning, hdistinct, hlaw, hran, hzero⟩ := h
  obtain ⟨rec₀, hrec₀, -⟩ := hrunning i hlive
  refine ⟨hnextId, ?_, ?_, ?_, ?_, ?_, ?_⟩
  · grind [Timetable.setSlot]
  · grind
  · grind
  · grind
  · grind [Timetable.setSlot]
  · grind [Timetable.setSlot]

/-- A handle that was not given out yet has no record. -/
theorem Books.unused (h : Books t records) (hid : t.nextId ≠ 0) : records t.nextId = none := by
  cases hr : records t.nextId with
  | none => rfl
  | some rec =>
    have := (h.ids _ rec hr).2
    omega

theorem Books.id_ne_nextId (h : Books t records) (hnext : t.nextId ≠ 0) (j : Index)
    (hid : (t.slots j).id ≠ 0) : (t.slots j).id ≠ t.nextId := by
  intro he
  obtain ⟨rec, hrec, -⟩ := h.running j hid
  rw [he, h.unused hnext] at hrec
  cases hrec

/-- A schedule function fills in a free slot. -/
theorem Books.fill (h : Books t records) (hnext : t.nextId ≠ 0) (hfree : (t.slots i).id = 0)
    {when period : ℕ} {cb : C} {arg : Option A} (hwhen : t.started = false → period ≠ 0 → when = 0) :
    Books ({ t with nextId := (t.nextId + 1) % idSize }.setSlot i ⟨t.nextId, when, period, some cb, arg⟩)
      (Function.update records t.nextId (some ⟨when, period, some cb, arg, [], none⟩)) := by
  have hne := h.id_ne_nextId hnext
  have hlawful : Lawful (⟨when, period, some cb, arg, [], none⟩ : Record C A) := by constructor <;> grind
  obtain ⟨hlt, hids, hrunning, hdistinct, hlaw, hran, hzero⟩ := h
  refine ⟨Nat.mod_lt _ (by decide), fun id rec' hr => ?_, fun j hid => ?_, ?_, ?_, ?_, ?_⟩
  · show id ≠ 0 ∧ ((t.nextId + 1) % idSize = 0 ∨ id < (t.nextId + 1) % idSize)
    have hid : id ≠ 0 ∧ id ≤ t.nextId := by grind
    unfold idSize at hlt ⊢
    omega
  · by_cases hj : j = i
    · subst hj
      rw [Timetable.setSlot_self]
      refine ⟨_, Function.update_self .., rfl, rfl, rfl, rfl, fun _ => rfl, 0, ?_, le_refl _⟩
      simp
    · grind
  · grind
  · grind
  · grind [Timetable.setSlot]
  · grind [Timetable.setSlot]

/-- A one-shot keeps its deadline, a recurring timer that waits begins its grid. -/
theorem Running.anchored {rec : Record C A} {s : Slot C A} (h : Running rec s) (hran : rec.ran = [])
    (hid : s.id ≠ 0) (hzero : s.period ≠ 0 → s.when = 0) (now : ℕ) :
    Running (rec.anchored now) (Timetable.anchored now s) := by
  obtain ⟨hperiod, hcb, harg, hcancelled, -, j, hwhen, -⟩ := h
  have hfirst : rec.first + j * s.period = rec.first ∨ rec.first = 0 := by
    by_cases hp : s.period = 0
    · exact Or.inl (by rw [hp, Nat.mul_zero, Nat.add_zero])
    · have := hzero hp
      omega
  unfold Record.anchored Timetable.anchored
  refine ⟨?_, ?_, ?_, ?_, ?_, 0, ?_, ?_⟩ <;> grind [Timetable.Pended]

/-- `start` gives the recurring timers that wait for it their first deadline. -/
theorem Books.anchor (h : Books t records) (hstarted : t.started = false) (now : ℕ) :
    Books { t.anchorPendedRecurring now with started := true }
      fun id => (records id).map (Record.anchored now) := by
  have hid : ∀ i, (Timetable.anchored now (t.slots i)).id = (t.slots i).id := by
    intro i
    grind [Timetable.anchored]
  refine ⟨h.nextId_lt, ?_, ?_, ?_, ?_, nofun, nofun⟩
  · intro id rec' hr
    obtain ⟨rec, hrec, -⟩ := Option.map_eq_some_iff.mp hr
    exact h.ids id rec hrec
  · intro i hlive
    have hlive : (t.slots i).id ≠ 0 := hid i ▸ hlive
    obtain ⟨rec, hrec, hrun⟩ := h.running i hlive
    refine ⟨rec.anchored now, ?_, ?_⟩
    · show (records (Timetable.anchored now (t.slots i)).id).map _ = _
      rw [hid, hrec]
      rfl
    · exact hrun.anchored (h.unrun hstarted _ rec hrec) hlive (h.pended hstarted i hlive) now
  · intro i j hlive he
    exact h.distinct i j (hid i ▸ hlive) ((hid i).symm.trans (he.trans (hid j)))
  · intro id rec' hr
    obtain ⟨rec, hrec, rfl⟩ := Option.map_eq_some_iff.mp hr
    obtain ⟨hcalls, honce, hcancelled⟩ := h.lawful id rec hrec
    have hran := h.unrun hstarted id rec hrec
    constructor <;> grind [Record.anchored]

/-- The callback is called once more, in time. -/
theorem Lawful.call {rec : Record C A} (h : Lawful rec) {time : ℕ} (hcancelled : rec.cancelled = none)
    (hperiod : rec.period = 0 → rec.ran = []) (htime : rec.first + rec.ran.length * rec.period ≤ time) :
    Lawful { rec with ran := rec.ran ++ [⟨time, rec.cb, rec.arg⟩] } := by
  obtain ⟨hcalls, -, -⟩ := h
  constructor <;> grind

namespace Core

/-! ### The walk -/

/-- What the walk has behind it and ahead of it. -/
structure WalkOk (S : Core P C A) (passed ahead now : ℕ) : Prop where
  now_le : now ≤ S.now
  ran : ∀ id ∈ S.ranNow, ∀ j : Index, (S.table.slots j).id = id → (j : ℕ) < passed
  due : ∀ id ∈ S.due, ∃ j : Index, ahead ≤ (j : ℕ) ∧ id ≠ 0 ∧ (S.table.slots j).id = id ∧
    (S.table.slots j).period = 0 ∧ (S.table.slots j).when ≤ now

/-- A recurring timer whose callback is to be called in this interrupt. -/
structure DueAgain (S : Core P C A) (i : Index) (now : ℕ) (cb : Option C) (arg : Option A) : Prop where
  live : (S.table.slots i).id ≠ 0
  period : (S.table.slots i).period ≠ 0
  record : ∀ rec, S.records (S.table.slots i).id = some rec →
    cb = rec.cb ∧ arg = rec.arg ∧ rec.first + rec.ran.length * rec.period ≤ now

def IsrOk (S : Core P C A) : Prop :=
  match S.isr with
  | .out => S.due = []
  | .entered => True
  | .walk i now => i ≤ maxScheduledCallbacks ∧ WalkOk S i i now
  | .moving i now cb arg => WalkOk S i (i + 1) now ∧ DueAgain S i now cb arg
  | .callback i now => WalkOk S (i + 1) (i + 1) now

structure Law (S : Core P C A) : Prop where
  books : Books S.table S.records
  nodup : S.ranNow.Nodup
  known : ∀ id ∈ S.ranNow, id ≠ 0 ∧ S.records id ≠ none
  isr : IsrOk S
  started : S.isr ≠ .out → S.table.started = true
  unstarted : S.startPlace = .before ∨ S.startPlace = .setUp → S.table.started = false

variable {S : Core P C A}

theorem isrOk_out (h : S.isr = .out) : IsrOk S ↔ S.due = [] := by
  rw [IsrOk, h]

theorem law_boot (port : P) (now : ℕ) : Law (boot port now : Core P C A) := by
  refine ⟨⟨show 1 < idSize by decide, ?_, ?_, ?_, ?_, ?_, ?_⟩, List.nodup_nil, ?_, rfl, fun h => absurd rfl h,
    fun _ => rfl⟩ <;> grind [boot, Timetable.init, Slot.free]

theorem WalkOk.weaken {passed ahead ahead' now : ℕ} (h : WalkOk S passed ahead now) (hle : ahead' ≤ ahead) :
    WalkOk S passed ahead' now := by
  refine ⟨h.now_le, h.ran, ?_⟩
  intro id hid
  obtain ⟨j, hj, hrest⟩ := h.due id hid
  exact ⟨j, hle.trans hj, hrest⟩

/-- The walk is at a slot that holds no one-shot that is due. -/
theorem WalkOk.past {i : Index} {now : ℕ} (h : WalkOk S i i now)
    (hnot : ¬ ((S.table.slots i).id ≠ 0 ∧ (S.table.slots i).period = 0 ∧ (S.table.slots i).when ≤ now)) :
    WalkOk S i (i + 1) now := by
  refine ⟨h.now_le, h.ran, ?_⟩
  intro id hid
  obtain ⟨j, hj, hrest⟩ := h.due id hid
  exact ⟨j, by grind, hrest⟩

/-- **A callback is called.**  Its slot is emptied or moved on, its record gets the call. -/
theorem Law.called (h : Law S) {i : Index} {now : ℕ} (hlive : (S.table.slots i).id ≠ 0)
    (hwalk : WalkOk S i i now) {s : Slot C A} {rec : Record C A}
    (hrec : S.records (S.table.slots i).id = some rec) (hstarted : S.table.started = true)
    (hs : s.id ≠ 0 → s.id = (S.table.slots i).id ∧
      Running { rec with ran := rec.ran ++ [⟨S.now, rec.cb, rec.arg⟩] } s)
    (hlawful : Lawful { rec with ran := rec.ran ++ [⟨S.now, rec.cb, rec.arg⟩] }) :
    Law (callCallback { S with table := S.table.setSlot i s } i now (S.table.slots i).id rec.cb rec.arg) := by
  obtain ⟨hnow, hran, hdue⟩ := hwalk
  have hdistinct := h.books.distinct
  have hknown := h.known
  unfold callCallback
  refine ⟨?_, ?_, ?_, ?_, fun _ => hstarted, h.unstarted⟩
  · show Books _ (Function.update S.records (S.table.slots i).id ((S.records (S.table.slots i).id).map _))
    rw [hrec]
    exact h.books.change _ _ hlive hs hlawful (by grind) (by grind)
  · -- the walk has not passed the slot, so its timer did not run yet
    exact List.nodup_cons.2 ⟨fun hmem => absurd (hran _ hmem i rfl) (Nat.lt_irrefl _), h.nodup⟩
  · grind
  · show WalkOk _ (i + 1) (i + 1) now
    refine ⟨hnow, ?_, ?_⟩
    · grind
    · intro id hid
      obtain ⟨j, hj, hne, hslot, hrest⟩ := hdue id (List.mem_of_mem_filter hid)
      refine ⟨j, ?_, ?_⟩ <;> grind

/-- One turn of the loop that moves a recurring timer on. -/
theorem Law.moveOn (h : Law S) {i : Index} {now : ℕ} {cb : Option C} {arg : Option A}
    (hwalk : WalkOk S i (i + 1) now) (hdue : DueAgain S i now cb arg) (hstarted : S.table.started = true)
    (hfits : (S.table.slots i).when + (S.table.slots i).period < tickSize) :
    Law (S.moveOn i now cb arg) := by
  obtain ⟨hlive, hperiod, hrecord⟩ := hdue
  obtain ⟨rec, hrec, hrun⟩ := h.books.running i hlive
  obtain ⟨rfl, rfl, htime⟩ := hrecord rec hrec
  obtain ⟨j, hwhen, hj⟩ := hrun.grid
  have hlawful := h.books.lawful _ rec hrec
  -- the slot on the next point of its grid
  have hnext : (S.table.slots i).when + (S.table.slots i).period =
      rec.first + (j + 1) * (S.table.slots i).period := by
    rw [hwhen, Nat.succ_mul]
    omega
  unfold Core.moveOn
  dsimp only
  rw [Nat.mod_eq_of_lt hfits]
  split
  · have hbooks := h.books.change ({ S.table.slots i with
        when := (S.table.slots i).when + (S.table.slots i).period }) rec hlive
      (fun _ => ⟨rfl, hrun.period, hrun.cb, hrun.arg, hrun.cancelled, hrun.oneShot, j + 1, hnext, by omega⟩)
      hlawful (by grind) (by grind)
    rw [← hrec, Function.update_eq_self] at hbooks
    obtain ⟨hnow, hran, hahead⟩ := hwalk
    refine ⟨hbooks, h.nodup, h.known, ⟨⟨hnow, ?_, ?_⟩, ?_, ?_, ?_⟩, fun _ => hstarted, h.unstarted⟩
    · grind
    · intro id hid
      obtain ⟨k, hk, hrest⟩ := hahead id hid
      exact ⟨k, by grind⟩
    all_goals grind
  · refine h.called hlive (hwalk.weaken (Nat.le_succ _)) hrec hstarted (fun _ => ⟨rfl, hrun.period, hrun.cb,
      hrun.arg, hrun.cancelled, fun hzero => absurd hzero hperiod, j + 1, hnext, ?_⟩) ?_
    · rw [List.length_append]
      exact Nat.succ_le_succ hj
    · exact hlawful.call hrun.cancelled (fun hzero => absurd (hrun.period ▸ hzero) hperiod)
        (htime.trans hwalk.now_le)

/-- The body of the walk. -/
theorem Law.fireDue (h : Law S) {i : Index} {now : ℕ} (hwalk : WalkOk S i i now)
    (hstarted : S.table.started = true)
    (hfits : (S.table.slots i).when ≤ now →
      (S.table.slots i).when + (S.table.slots i).period < tickSize) :
    Law (S.fireDue i now) := by
  unfold Core.fireDue
  dsimp only
  split
  · next hdue =>
    obtain ⟨rec, hrec, hrun⟩ := h.books.running i hdue.1
    obtain ⟨j, hwhen, hj⟩ := hrun.grid
    split
    · next hzero =>
      have hran := hrun.oneShot hzero
      rw [← hrun.cb, ← hrun.arg]
      refine h.called hdue.1 hwalk hrec hstarted (fun hid => absurd rfl hid)
        ((h.books.lawful _ rec hrec).call hrun.cancelled (fun _ => hran) ?_)
      have hfirst : (S.table.slots i).when = rec.first := by
        rw [hwhen, hzero, Nat.mul_zero, Nat.add_zero]
      rw [hran, List.length_nil, Nat.zero_mul, Nat.add_zero, ← hfirst]
      exact hdue.2.trans hwalk.now_le
    · next hperiod =>
      refine h.moveOn (hwalk.past fun hone => hperiod hone.2.1) ⟨hdue.1, hperiod, ?_⟩ hstarted (hfits hdue.2)
      intro rec' hrec'
      rw [hrec] at hrec'
      cases hrec'
      refine ⟨hrun.cb.symm, hrun.arg.symm, ?_⟩
      have hle : rec.ran.length * rec.period ≤ j * (S.table.slots i).period := by
        rw [hrun.period]
        exact Nat.mul_le_mul_right _ hj
      have := hdue.2
      omega
  · next hdue =>
    have hpast := hwalk.past fun hone => hdue ⟨hone.1, hone.2.2⟩
    refine ⟨h.books, h.nodup, h.known, ⟨i.isLt, hpast.now_le, ?_, hpast.due⟩, fun _ => hstarted,
      h.unstarted⟩
    intro id hid j hj
    exact (hpast.ran id hid j hj).trans (Nat.lt_succ_self _)

/-! ### The operations -/

/-- The law says nothing of the port, and time may pass. -/
theorem Law.congr {S' : Core P C A} (h : Law S) (hnow : S.now ≤ S'.now) (htable : S'.table = S.table)
    (hrecords : S'.records = S.records) (hisr : S'.isr = S.isr) (hran : S'.ranNow = S.ranNow)
    (hdue : S'.due = S.due) (hplace : S'.startPlace = .before ∨ S'.startPlace = .setUp →
      S.startPlace = .before ∨ S.startPlace = .setUp) : Law S' := by
  have hwalk : ∀ {p a now}, WalkOk S p a now → WalkOk S' p a now := by
    rintro p a now ⟨hle, hran, hdue⟩
    constructor <;> grind
  have hagain : ∀ {i now cb arg}, DueAgain S i now cb arg → DueAgain S' i now cb arg := by
    rintro i now cb arg ⟨hlive, hperiod, hrecord⟩
    constructor <;> grind
  obtain ⟨hbooks, hnodup, hknown, hok, hstarted, hunstarted⟩ := h
  unfold IsrOk at hok
  refine ⟨?_, ?_, ?_, ?_, ?_, ?_⟩
  case refine_4 =>
    unfold IsrOk
    split <;> grind
  all_goals grind

theorem Law.rearmLocked (h : Law S) (O : OneShot P) (driver : Driver) : Law (S.rearmLocked O driver) := by
  obtain ⟨port, heq⟩ := rearmLocked_eq O driver S
  rw [heq]
  exact h.congr (le_refl _) rfl rfl rfl rfl rfl id

theorem Law.settle (h : Law S) (O : OneShot P) (driver : Driver) : Law (S.settle O driver) := by
  unfold Core.settle
  split
  · exact h.rearmLocked O driver
  · exact h

/-- Threads and callbacks call the driver with the walk at rest. -/
theorem isrOk_of_mayCall {S' : Core P C A} (hcall : S.mayCall = true) (hisr : S'.isr = S.isr) (h : IsrOk S)
    (hout : S.due = [] → S'.due = [])
    (hwalk : ∀ k now, WalkOk S k k now → WalkOk S' k k now) : IsrOk S' := by
  unfold mayCall at hcall
  unfold IsrOk at h ⊢
  grind

theorem Law.fill (h : Law S) (O : OneShot P) (driver : Driver) (hcall : S.mayCall = true)
    (hnext : S.table.nextId ≠ 0) {i : Index} (hfree : (S.table.slots i).id = 0) {when period : ℕ} (cb : C)
    (arg : Option A) (hwhen : S.table.started = false → period ≠ 0 → when = 0) :
    Law (S.fill O driver i when period cb arg).2 := by
  have hunused := h.books.unused hnext
  have hknown := h.known
  unfold Core.fill
  rw [Timetable.nextHandleId_eq hnext]
  apply Law.settle
  refine ⟨h.books.fill hnext hfree hwhen, h.nodup, by grind, ?_, h.started, h.unstarted⟩
  refine isrOk_of_mayCall hcall rfl h.isr id fun k now hwalk => ⟨hwalk.now_le, ?_, fun id hid => ?_⟩
  · have hran := hwalk.ran
    grind
  · obtain ⟨j, hj, hne, hslot⟩ := hwalk.due id hid
    exact ⟨j, hj, hne, by grind⟩

theorem Law.cancel (h : Law S) (O : OneShot P) (driver : Driver) (hcall : S.mayCall = true) (id : ℕ) :
    Law (S.cancel O driver id).2 := by
  unfold Core.cancel
  split
  · exact h
  · next hid =>
    split
    · next i hfound =>
      obtain rfl : (S.table.slots i).id = id := Timetable.findSlot_id hfound
      obtain ⟨rec, hrec, hrun⟩ := h.books.running i hid
      have hlawful := h.books.lawful _ rec hrec
      have hbooks := h.books.change .free { rec with cancelled := some rec.ran.length } hid
        (fun hzero => absurd rfl hzero)
        ⟨hlawful.calls, hlawful.once, fun n hn => Option.some.inj hn⟩
        (fun hnot => h.books.unrun hnot _ rec hrec) (fun _ hzero => absurd rfl hzero)
      have hknown := h.known
      rw [hrec]
      apply Law.settle
      refine ⟨hbooks, h.nodup, by grind, ?_, h.started, h.unstarted⟩
      refine isrOk_of_mayCall hcall rfl h.isr ?_ fun k now hwalk => ⟨hwalk.now_le, ?_, fun id' hid' => ?_⟩
      · grind
      · have hran := hwalk.ran
        grind [Slot.free]
      · obtain ⟨j, hj, hne, hslot⟩ := hwalk.due id' (List.mem_of_mem_filter hid')
        exact ⟨j, hj, hne, by grind⟩
    · exact h

/-- The interrupt reads the time. -/
theorem Law.readTime (h : Law S) (hisr : S.isr = .entered) :
    Law { S with isr := .walk 0 S.now, ranNow := [], due := dueOneShots S.table S.now } := by
  have hstarted := h.started
  refine ⟨h.books, List.nodup_nil, by simp, ⟨Nat.zero_le _, le_refl _, by simp, fun id hid => ?_⟩, by grind,
    h.unstarted⟩
  obtain ⟨j, hj, rfl⟩ := List.mem_map.1 hid
  exact ⟨j, Nat.zero_le _, by grind⟩

/-! ### Every run -/

/-- The deadline that is to be moved on from this place of the interrupt does not overflow. -/
def moveFits (t : Timetable C A) : IsrPlace C A → Prop
  | .walk i now => ∀ h : i < maxScheduledCallbacks, (t.slots ⟨i, h⟩).when ≤ now →
      (t.slots ⟨i, h⟩).when + (t.slots ⟨i, h⟩).period < tickSize
  | .moving i _ _ _ => (t.slots i).when + (t.slots i).period < tickSize
  | _ => True

instance (t : Timetable C A) : (place : IsrPlace C A) → Decidable (moveFits t place)
  | .walk i now => inferInstanceAs (Decidable (∀ h : i < maxScheduledCallbacks,
      (t.slots ⟨i, h⟩).when ≤ now → (t.slots ⟨i, h⟩).when + (t.slots ⟨i, h⟩).period < tickSize))
  | .moving i _ _ _ => inferInstanceAs (Decidable ((t.slots i).when + (t.slots i).period < tickSize))
  | .out => isTrue trivial
  | .entered => isTrue trivial
  | .callback _ _ => isTrue trivial

/-- No handle id is given out a second time, and moving a recurring timer on does not overflow. -/
def unwrapped (S : Core P C A) : Act C A → Prop
  | .scheduleAt _ _ _ => S.table.nextId ≠ 0
  | .scheduleRecurring _ _ _ => S.table.nextId ≠ 0
  | .look => moveFits S.table S.isr
  | .move => moveFits S.table S.isr
  | _ => True

instance (S : Core P C A) : (act : Act C A) → Decidable (unwrapped S act)
  | .scheduleAt _ _ _ => inferInstanceAs (Decidable (S.table.nextId ≠ 0))
  | .scheduleRecurring _ _ _ => inferInstanceAs (Decidable (S.table.nextId ≠ 0))
  | .look => inferInstanceAs (Decidable (moveFits S.table S.isr))
  | .move => inferInstanceAs (Decidable (moveFits S.table S.isr))
  | .tick _ => isTrue trivial
  | .setUp => isTrue trivial
  | .anchor => isTrue trivial
  | .irqEnable => isTrue trivial
  | .cancel _ => isTrue trivial
  | .interrupt => isTrue trivial
  | .readTime => isTrue trivial
  | .ret => isTrue trivial
  | .leave => isTrue trivial

theorem Law.next {S' : Core P C A} {O : OneShot P} {driver : Driver} {act : Act C A} (h : Law S)
    (hok : unwrapped S act) (hstep : Core.next O driver S act = some S') : Law S' := by
  have hknown := h.known
  have hstarted := h.started
  have hisr := h.isr
  unfold IsrOk at hisr
  cases effect_of_next hstep with
  | tick => exact h.congr (Nat.le_add_right _ _) rfl rfl rfl rfl rfl id
  | setUp hplace _ => exact h.congr (le_refl _) rfl rfl rfl rfl rfl fun _ => Or.inl hplace
  | anchor hplace hout =>
    apply Law.rearmLocked
    refine ⟨h.books.anchor (h.unstarted (Or.inr hplace)) S.now, h.nodup, ?_, ?_, fun _ => rfl, nofun⟩
    · grind [Option.map_eq_none_iff]
    · refine (isrOk_out ?_).2 ((isrOk_out hout).1 h.isr)
      exact hout
  | irqEnable => exact h.congr (le_refl _) rfl rfl rfl rfl rfl nofun
  | scheduleAt hcall =>
    unfold Core.scheduleAt
    split
    · next hfound => exact h.fill O driver hcall hok (Timetable.findSlot_id hfound) _ _ (fun _ h => absurd rfl h)
    · exact h
  | scheduleRecurring hcall =>
    unfold Core.scheduleRecurring
    split
    · next hfound =>
      split
      · exact h
      · exact h.fill O driver hcall hok (Timetable.findSlot_id hfound) _ _ fun hnot _ => by rw [hnot]; rfl
    · exact h
  | cancel hcall => exact h.cancel O driver hcall _
  | interrupt hout hstarted =>
    refine ⟨h.books, h.nodup, h.known, ?_, fun _ => hstarted, h.unstarted⟩
    unfold IsrOk
    grind
  | readTime hentered => exact h.readTime hentered
  | look hwalk =>
    rw [hwalk] at hisr
    rw [unwrapped, hwalk] at hok
    exact h.fireDue hisr.2 (by grind) (hok (Fin.isLt _))
  | move hmoving =>
    rw [hmoving] at hisr
    rw [unwrapped, hmoving] at hok
    exact h.moveOn hisr.1 hisr.2 (by grind) hok
  | @ret i now hcallback =>
    rw [hcallback] at hisr
    exact ⟨h.books, h.nodup, h.known, ⟨i.isLt, hisr.now_le, hisr.ran, hisr.due⟩, by grind, h.unstarted⟩
  | leave hend =>
    rw [hend] at hisr
    -- nothing is ahead of the end of the walk
    have hdue : S.due = [] := by
      rw [List.eq_nil_iff_forall_not_mem]
      intro id hid
      obtain ⟨j, hj, -⟩ := hisr.2.due id hid
      have := j.isLt
      omega
    have hlaw : Law { S with isr := .out } :=
      ⟨h.books, h.nodup, h.known, hdue, fun hne => absurd rfl hne, h.unstarted⟩
    obtain ⟨port, heq⟩ := rearmLocked_eq O driver S
    rw [heq]
    exact hlaw.congr (le_refl _) rfl rfl rfl rfl rfl id

/-- **The firing law**, for both drivers and any port.  In every run that wraps no handle id and overflows no
deadline, of every timer: the `k`-th callback (from zero) came at or after the first deadline plus `k`
intervals, and is the one that was scheduled; a one-shot's ran at most once; none ran after a cancel that
returned true.  Every live timer's deadline is on its grid, nothing ran twice in the last interrupt, and with
no interrupt under way none is left of the one-shots that were due when it read the time. -/
theorem firing_law (O : OneShot P) (driver : Driver) (port : P) (now : ℕ) (acts : List (Act C A))
    (S : Core P C A) (hrun : run (Core.next O driver) (boot port now) acts = some S)
    (hok : Meets (Core.next O driver) unwrapped (boot port now) acts) :
    (∀ id rec, S.records id = some rec →
      (∀ (k : ℕ) (call : Call C A), rec.ran[k]? = some call →
        rec.first + k * rec.period ≤ call.time ∧ call.cb = rec.cb ∧ call.arg = rec.arg) ∧
      (rec.period = 0 → rec.ran.length ≤ 1) ∧
      ∀ n, rec.cancelled = some n → rec.ran.length = n) ∧
    (∀ i, (S.table.slots i).id ≠ 0 → ∃ rec j, S.records (S.table.slots i).id = some rec ∧
      rec.period = (S.table.slots i).period ∧ (S.table.slots i).when = rec.first + j * rec.period) ∧
    S.ranNow.Nodup ∧ (S.isr = .out → S.due = []) := by
  have h : Law S := run_invariant_of_meets (I := Law) (fun _ _ _ h hok hstep => h.next hok hstep)
    (law_boot port now) hok hrun
  refine ⟨?_, ?_, h.nodup, fun hout => (isrOk_out hout).1 h.isr⟩
  · intro id rec hrec
    have hlawful := h.books.lawful id rec hrec
    exact ⟨hlawful.calls, hlawful.once, hlawful.cancelled⟩
  · intro i hlive
    obtain ⟨rec, hrec, hrunning⟩ := h.books.running i hlive
    obtain ⟨j, hwhen, -⟩ := hrunning.grid
    rw [← hrunning.period] at hwhen
    exact ⟨rec, j, hrec, hrunning.period, hwhen⟩

/-- A one-shot and a recurring timer that are both overdue.  The one-shot's callback schedules another one,
which gets its slot; the recurring timer is moved on three times and runs once. -/
def overdueRun : List (Act Unit Unit) :=
  [.setUp, .anchor, .irqEnable, .scheduleAt 8 (some ()) none, .scheduleRecurring 3 (some ()) none, .tick 10,
    .interrupt, .readTime, .look, .scheduleAt 20 (some ()) none, .ret, .look, .move, .move, .ret] ++
    List.replicate 14 .look ++ [.leave]

theorem firing_law_overdue :
    ∃ S, run (Core.next mtimeOneShot .tickless) (boot ⟨never, false⟩ 5) overdueRun = some S ∧
      S.ranNow = [2, 1] ∧ S.ranNow.Nodup ∧ S.due = [] ∧
      ∃ rec, S.records 2 = some rec ∧ ∀ (k : ℕ) (call : Call Unit Unit), rec.ran[k]? = some call →
        rec.first + k * rec.period ≤ call.time ∧ call.cb = rec.cb ∧ call.arg = rec.arg := by
  have hrun : (run (Core.next mtimeOneShot .tickless) (boot ⟨never, false⟩ 5) overdueRun).map
      (fun S => (S.isr, S.ranNow, S.records 2)) =
        some (.out, [2, 1], some ⟨8, 3, some (), none, [⟨15, some (), none⟩], none⟩) := rfl
  obtain ⟨S, hS, hview⟩ := Option.map_eq_some_iff.mp hrun
  rw [Prod.mk.injEq, Prod.mk.injEq] at hview
  obtain ⟨hisr, hran, hrec⟩ := hview
  obtain ⟨hlaw, -, hnodup, hdue⟩ := firing_law mtimeOneShot .tickless _ _ _ S hS (by decide)
  exact ⟨S, hS, hran, hnodup, hdue hisr, _, hrec, (hlaw 2 _ hrec).1⟩

end Core

end Cyros.Time
