import Cyros.Trace.Ring
import Mathlib.Data.List.Chain

/-!
# Where the losses lie

`stream_writer::drain` for one core, over the trace ring of that core: it reads sixteen records at a time until a
read comes back short or a ring's worth is written, and then reads the count of the dropped records.  If the count
has changed it writes a dropped packet.

A dropped record lies where its append was: `lostAt` is the number of records kept before it.  A dropped packet
places the losses it is the first to count between the records written before the previous dropped packet and the
end of the records written so far (`Between`).

* `losses_placed`: that is where they lie, in every run in which no count is read while the ring holds a record that
  was kept before a loss.
* `loss_after_drain`: the core appends between the last read and the read of the count; the loss is reported before
  the records it comes after.
-/

namespace Cyros.Trace

open Cyros.Lib

/-- What a drain writes for a core.  `counted` is the number of losses when the total was read. -/
inductive StreamPacket (α : Type) where
  | records (rs : List (Option α))
  | dropped (total : BitVec 32) (counted : ℕ)

/-- A place in the stream: the losses counted so far, and the records written so far. -/
structure Mark where
  counted : ℕ
  written : ℕ

section Places

variable {α : Type}

/-- The places of the dropped packets, after `w` records. -/
def marks : ℕ → List (StreamPacket α) → List Mark
  | _, [] => []
  | w, .records rs :: rest => marks (w + rs.length) rest
  | w, .dropped _ counted :: rest => ⟨counted, w⟩ :: marks w rest

/-- The records in the stream. -/
def written : List (StreamPacket α) → ℕ
  | [] => 0
  | .records rs :: rest => rs.length + written rest
  | .dropped .. :: rest => written rest

/-- For each lost record how many were kept before it, after `n` kept ones. -/
def lostAt : ℕ → List (α × Fate) → List ℕ
  | _, [] => []
  | n, (_, .kept) :: rest => lostAt (n + 1) rest
  | n, (_, .lost _) :: rest => n :: lostAt n rest

/-- **Where a dropped packet places its losses**: it counts at least one, and each of them lies after the records
written up to the previous dropped packet, and before the end of those written up to this one. -/
def Between (losses : List ℕ) (a b : Mark) : Prop :=
  a.counted < b.counted ∧ ∀ j p, a.counted ≤ j → j < b.counted → losses[j]? = some p →
    a.written ≤ p ∧ p ≤ b.written

theorem written_append (s s' : List (StreamPacket α)) : written (s ++ s') = written s + written s' := by
  induction s with
  | nil => simp [written]
  | cons x rest ih => cases x <;> simp [written, ih, Nat.add_assoc]

theorem marks_append (w : ℕ) (s s' : List (StreamPacket α)) :
    marks w (s ++ s') = marks w s ++ marks (w + written s) s' := by
  induction s generalizing w with
  | nil => simp [marks, written]
  | cons x rest ih => cases x <;> simp [marks, written, ih, Nat.add_assoc]

theorem lostAt_append (n : ℕ) (log log' : List (α × Fate)) :
    lostAt n (log ++ log') = lostAt n log ++ lostAt (n + (kept log).length) log' := by
  induction log generalizing n with
  | nil => simp [lostAt, kept]
  | cons x rest ih =>
      obtain ⟨r, fate⟩ := x
      cases fate with
      | kept => simp [lostAt, ih, kept, Nat.add_assoc, Nat.add_comm]
      | lost u => simp [lostAt, ih, kept]

theorem length_lostAt (n : ℕ) (log : List (α × Fate)) : (lostAt n log).length = (lost log).length := by
  induction log generalizing n with
  | nil => rfl
  | cons x rest ih =>
      obtain ⟨r, fate⟩ := x
      cases fate with
      | kept => simpa [lostAt, lost] using ih (n + 1)
      | lost u => simpa [lostAt, lost] using ih n

/-- Losses that come later change no place. -/
theorem Between.append {losses : List ℕ} {a b : Mark} (h : Between losses a b)
    (hb : b.counted ≤ losses.length) (more : List ℕ) : Between (losses ++ more) a b := by
  refine ⟨h.1, fun j p hj hlt hp => h.2 j p hj hlt ?_⟩
  rwa [List.getElem?_append_left (by omega)] at hp

end Places

/-- Where `drain` stands. -/
inductive DrainPlace where
  | idle
  /-- At the head of its loop, with `n` records written. -/
  | looping (n : ℕ)
  /-- In a read, which began with `start` records taken, or back from it. -/
  | reading (n start : ℕ)
  | counting
  deriving DecidableEq

structure Drain (α : Type) where
  ring : CoreLog α
  place : DrainPlace
  /-- `reported_dropped` of the core. -/
  reported : BitVec 32
  stream : List (StreamPacket α)

inductive DrainAct (α : Type) where
  /-- A step of an append, or of the read that the drain is in. -/
  | log (act : LogAct α)
  /-- `drain` is called. -/
  | drain
  /-- Its loop goes on. -/
  | step
  /-- It reads the count of the dropped records. -/
  | count

namespace Drain

variable {α : Type}

/-- The loop of `drain`. -/
def loop (size : ℕ) (S : Drain α) : Option (Drain α) :=
  match S.place with
  | .looping n =>
      if n < max size 1 then (S.ring.next size (.read 16)).map fun ring =>
        { S with ring := ring, place := .reading n S.ring.taken.length }
      else some { S with place := .counting }
  | .reading n start => match S.ring.reader with
    | .idle =>
        let chunk := S.ring.taken.drop start
        if chunk.length = 0 then some { S with place := .counting }
        else some { S with
          stream := S.stream ++ [.records chunk]
          place := if chunk.length < 16 then .counting else .looping (n + chunk.length) }
    | _ => none
  | _ => none

def next (size : ℕ) (S : Drain α) : DrainAct α → Option (Drain α)
  | .log act => match act with
    | .read _ => none
    | _ => (S.ring.next size act).map fun ring => { S with ring := ring }
  | .drain => match S.place with
    | .idle => some { S with place := .looping 0 }
    | _ => none
  | .step => S.loop size
  | .count => match S.place with
    | .counting =>
        if S.ring.dropped ≠ S.reported then some { S with
          stream := S.stream ++ [.dropped S.ring.dropped (lost S.ring.log).length]
          reported := S.ring.dropped
          place := .idle }
        else some { S with place := .idle }
    | _ => none

def boot : Drain α := ⟨CoreLog.boot, .idle, 0, []⟩

/-- **No loss comes after a record that is still in the ring** where the count of the losses is read. -/
def CaughtUp (S : Drain α) (act : DrainAct α) : Prop :=
  match act with
  | .count => ∀ p ∈ lostAt 0 S.ring.log, p ≤ S.ring.taken.length
  | _ => True

instance (S : Drain α) (act : DrainAct α) : Decidable (S.CaughtUp act) :=
  match act with
  | .count => inferInstanceAs (Decidable (∀ p ∈ lostAt 0 S.ring.log, p ≤ S.ring.taken.length))
  | .log _ | .drain | .step => isTrue trivial

/-! ### The invariant -/

/-- The places of the dropped packets, from the start of the stream. -/
def places (S : Drain α) : List Mark := ⟨0, 0⟩ :: marks 0 S.stream

/-- The records taken are written, but for those of a read that is not yet written. -/
def WrittenOk (S : Drain α) : Prop :=
  match S.place with
  | .reading _ start => written S.stream = start ∧ start ≤ S.ring.taken.length
  | _ => written S.stream = S.ring.taken.length ∧ S.ring.reader = .idle

/-- What is known of the last dropped packet. -/
structure LastOk (S : Drain α) (m : Mark) : Prop where
  last : S.places.getLast? = some m
  reported : S.reported = BitVec.ofNat 32 m.counted
  written : m.written ≤ S.ring.taken.length
  counted : m.counted ≤ (lostAt 0 S.ring.log).length
  after : ∀ j p, m.counted ≤ j → (lostAt 0 S.ring.log)[j]? = some p → m.written ≤ p

structure Inv (size : ℕ) (S : Drain α) : Prop where
  ring : S.ring.Inv size
  chain : S.places.IsChain (Between (lostAt 0 S.ring.log))
  counted : ∀ m ∈ S.places, m.counted ≤ (lostAt 0 S.ring.log).length
  totals : ∀ total counted, .dropped total counted ∈ S.stream → total = BitVec.ofNat 32 counted
  last : ∃ m, S.LastOk m
  written : S.WrittenOk

theorem inv_boot (size : ℕ) : Inv size (boot : Drain α) where
  ring := CoreLog.inv_boot size
  chain := List.isChain_singleton _
  counted := by
    intro m hm
    simp [places, boot, marks] at hm
    simp [hm]
  totals := by
    intro total counted h
    cases h
  last := ⟨⟨0, 0⟩, rfl, rfl, le_refl _, Nat.zero_le _, fun _ _ _ _ => Nat.zero_le _⟩
  written := ⟨rfl, rfl⟩

variable {k : ℕ} {S S' : Drain α}

/-- A step of the ring, which may lose one record more. -/
theorem Inv.ringStep {size : ℕ} (hi : Inv size S) {ring : CoreLog α} (hring : ring.Inv size) {more : List ℕ}
    (hlost : lostAt 0 ring.log = lostAt 0 S.ring.log ++ more)
    (hmore : ∀ p ∈ more, S.ring.taken.length ≤ p) (htaken : S.ring.taken.length ≤ ring.taken.length)
    (hwritten : WrittenOk { S with ring := ring }) : Inv size { S with ring := ring } where
  ring := hring
  chain := by
    show S.places.IsChain (Between (lostAt 0 ring.log))
    rw [hlost]
    refine hi.chain.imp_of_mem_imp fun a b ha hb hab => ?_
    exact hab.append (hi.counted b hb) more
  counted := by
    intro m hm
    show m.counted ≤ (lostAt 0 ring.log).length
    rw [hlost, List.length_append]
    exact Nat.le_add_right_of_le (hi.counted m hm)
  totals := hi.totals
  last := by
    obtain ⟨m, hm⟩ := hi.last
    refine ⟨m, hm.last, hm.reported, le_trans hm.written htaken, ?_, ?_⟩
    · show m.counted ≤ (lostAt 0 ring.log).length
      rw [hlost, List.length_append]
      exact Nat.le_add_right_of_le hm.counted
    · intro j p hj hp
      have hp' : (lostAt 0 S.ring.log ++ more)[j]? = some p := by
        rw [← hlost]
        exact hp
      rcases Nat.lt_or_ge j (lostAt 0 S.ring.log).length with hlt | hge
      · rw [List.getElem?_append_left hlt] at hp'
        exact hm.after j p hj hp'
      · rw [List.getElem?_append_right hge] at hp'
        exact le_trans hm.written (hmore p (List.mem_of_getElem? hp'))
  written := hwritten

/-- A step that neither moves the ring nor writes a dropped packet. -/
theorem Inv.move {size : ℕ} (hi : Inv size S) {place : DrainPlace} {stream : List (StreamPacket α)}
    (hmarks : marks 0 stream = marks 0 S.stream)
    (htotals : ∀ total counted, .dropped total counted ∈ stream → .dropped total counted ∈ S.stream)
    (hwritten : WrittenOk { S with place := place, stream := stream }) :
    Inv size { S with place := place, stream := stream } := by
  have hplaces : places { S with place := place, stream := stream } = S.places := by
    simp only [places, hmarks]
  refine ⟨hi.ring, ?_, ?_, fun total counted h => hi.totals _ _ (htotals _ _ h), ?_, hwritten⟩
  · rw [hplaces]
    exact hi.chain
  · rw [hplaces]
    exact hi.counted
  · obtain ⟨m, hm⟩ := hi.last
    exact ⟨m, hplaces ▸ hm.last, hm.reported, hm.written, hm.counted, hm.after⟩

section Steps

variable (hk : k ≤ 31)

include hk

theorem Inv.log (hi : Inv (2 ^ k) S) {act : LogAct α} {ring : CoreLog α} (hread : ∀ n, act ≠ .read n)
    (h : S.ring.next (2 ^ k) act = some ring) : Inv (2 ^ k) { S with ring := ring } := by
  have hring := hi.ring.next hk h
  have hwritten := hi.written
  unfold WrittenOk at hwritten
  -- the core's steps leave what is taken and the reader as they are
  have hsame : ring.taken = S.ring.taken → ring.reader = S.ring.reader →
      WrittenOk { S with ring := ring } := by
    intro htaken hreader
    unfold WrittenOk
    dsimp only
    rw [htaken, hreader]
    exact hwritten
  cases act with
  | append r =>
      simp only [CoreLog.next] at h
      split at h
      · cases h
        exact hi.ringStep hring (List.append_nil _).symm (by simp) (le_refl _) (hsame rfl rfl)
      · cases h
  | produce =>
      obtain ⟨htaken, hreader, hlog⟩ := CoreLog.produce_frame h
      have hle : S.ring.taken.length ≤ ring.taken.length := by rw [htaken]
      rcases hlog with hlog | ⟨r, fate, hlog⟩
      · exact hi.ringStep hring (by rw [hlog, List.append_nil]) (by simp) hle (hsame htaken hreader)
      · have hlost : lostAt 0 ring.log =
            lostAt 0 S.ring.log ++ lostAt (kept S.ring.log).length [(r, fate)] := by
          rw [hlog, lostAt_append, Nat.zero_add]
        refine hi.ringStep hring hlost (fun p hp => ?_) hle (hsame htaken hreader)
        cases fate with
        | kept => simp [lostAt] at hp
        | lost u =>
            simp [lostAt] at hp
            rw [hp]
            exact hi.ring.low
  | read n => exact absurd rfl (hread n)
  | consume =>
      obtain ⟨hlog, hle, hbusy⟩ := CoreLog.consume_frame h
      refine hi.ringStep hring (by rw [hlog, List.append_nil]) (by simp) hle ?_
      unfold WrittenOk
      dsimp only
      -- only a drain in a read has the reader busy
      split at hwritten
      · exact ⟨hwritten.1, le_trans hwritten.2 hle⟩
      · exact absurd hwritten.2 hbusy

theorem Inv.loop (hi : Inv (2 ^ k) S) (h : S.loop (2 ^ k) = some S') : Inv (2 ^ k) S' := by
  have hwritten := hi.written
  unfold Drain.loop at h
  unfold WrittenOk at hwritten
  split at h
  · next n hp =>
    rw [hp] at hwritten
    split at h
    · obtain ⟨ring, hring, rfl⟩ := Option.map_eq_some_iff.mp h
      have hframe : ring.log = S.ring.log ∧ ring.taken = S.ring.taken := by
        simp only [CoreLog.next, hwritten.2] at hring
        cases hring
        exact ⟨rfl, rfl⟩
      have hmoved : Inv (2 ^ k) { S with place := .reading n S.ring.taken.length } :=
        hi.move rfl (fun _ _ => id) ⟨hwritten.1, le_refl _⟩
      refine hmoved.ringStep (hi.ring.next hk hring) (by rw [hframe.1, List.append_nil]) (by simp) ?_ ?_
      · rw [hframe.2]
      · exact ⟨hwritten.1, by rw [hframe.2]⟩
    · cases h
      exact hi.move rfl (fun _ _ => id) hwritten
  · next n start hp =>
    rw [hp] at hwritten
    split at h
    · next hr =>
      dsimp only at h
      have hlength : (S.ring.taken.drop start).length = S.ring.taken.length - start := List.length_drop
      split at h
      · next hnone =>
        cases h
        refine hi.move rfl (fun _ _ => id) ⟨?_, hr⟩
        show Trace.written S.stream = S.ring.taken.length
        omega
      · cases h
        refine hi.move ?_ ?_ ?_
        · simp [marks_append, marks]
        · intro total counted hmem
          simpa using hmem
        · have hall : Trace.written (S.stream ++ [.records (S.ring.taken.drop start)]) =
              S.ring.taken.length := by
            rw [written_append, hwritten.1]
            simp only [Trace.written]
            omega
          split
          · exact ⟨hall, hr⟩
          · exact ⟨hall, hr⟩
    · cases h
  · cases h

omit hk in
/-- **A dropped packet is written**, for losses none of which comes after a record still in the ring. -/
theorem Inv.report {size : ℕ} (hi : Inv size S) (hp : S.place = .counting)
    (hcaught : ∀ p ∈ lostAt 0 S.ring.log, p ≤ S.ring.taken.length) (hne : S.ring.dropped ≠ S.reported) :
    Inv size { S with
      stream := S.stream ++ [.dropped S.ring.dropped (lost S.ring.log).length]
      reported := S.ring.dropped
      place := .idle } := by
  have hwritten := hi.written
  unfold WrittenOk at hwritten
  rw [hp] at hwritten
  obtain ⟨m, hm⟩ := hi.last
  have hcount : (lostAt 0 S.ring.log).length = (lost S.ring.log).length := length_lostAt 0 _
  have hplaces : places { S with
      stream := S.stream ++ [.dropped S.ring.dropped (lost S.ring.log).length]
      reported := S.ring.dropped
      place := .idle } = S.places ++ [⟨(lost S.ring.log).length, S.ring.taken.length⟩] := by
    simp only [places, marks_append, marks, Nat.zero_add, hwritten.1, List.cons_append]
  -- the count differs from the one reported, so there is a loss that was not
  have hnew : m.counted < (lost S.ring.log).length := by
    refine lt_of_le_of_ne (hcount ▸ hm.counted) fun heq => hne ?_
    rw [hi.ring.dropped, hm.reported, heq]
  refine ⟨hi.ring, ?_, ?_, ?_, ?_, ?_⟩
  · rw [hplaces, List.isChain_append]
    refine ⟨hi.chain, List.isChain_singleton _, fun a ha b hb => ?_⟩
    rw [hm.last] at ha
    cases ha
    cases hb
    exact ⟨hnew, fun j p hj _ hp => ⟨hm.after j p hj hp, hcaught p (List.mem_of_getElem? hp)⟩⟩
  · rw [hplaces]
    intro x hx
    rcases List.mem_append.1 hx with hold | hlast
    · exact hi.counted x hold
    · rw [List.mem_singleton] at hlast
      rw [hlast]
      exact hcount.ge
  · intro total counted hmem
    rcases List.mem_append.1 hmem with hold | hlast
    · exact hi.totals _ _ hold
    · rw [List.mem_singleton] at hlast
      cases hlast
      exact hi.ring.dropped
  · refine ⟨⟨(lost S.ring.log).length, S.ring.taken.length⟩, ?_, hi.ring.dropped, le_refl _, hcount.ge, ?_⟩
    · rw [hplaces, List.getLast?_concat]
    · intro j p hj hp
      obtain ⟨hlt, -⟩ := List.getElem?_eq_some_iff.1 hp
      exact absurd hlt (by rw [hcount]; exact Nat.not_lt.2 hj)
  · refine ⟨?_, hwritten.2⟩
    rw [written_append, hwritten.1]
    simp [Trace.written]

/-- **One step keeps the invariant**, where it meets the condition. -/
theorem Inv.next (hi : Inv (2 ^ k) S) {act : DrainAct α} (hcaught : S.CaughtUp act)
    (h : S.next (2 ^ k) act = some S') : Inv (2 ^ k) S' := by
  have hwritten := hi.written
  unfold WrittenOk at hwritten
  cases act with
  | log act =>
      simp only [Drain.next] at h
      split at h
      · cases h
      · next hread =>
        obtain ⟨ring, hring, rfl⟩ := Option.map_eq_some_iff.mp h
        exact hi.log hk hread hring
  | drain =>
      simp only [Drain.next] at h
      split at h
      · next hp =>
        rw [hp] at hwritten
        cases h
        exact hi.move rfl (fun _ _ => id) hwritten
      · cases h
  | step => exact hi.loop hk h
  | count =>
      simp only [Drain.next] at h
      split at h
      · next hp =>
        split at h
        · next hne =>
          cases h
          exact hi.report hp hcaught hne
        · rw [hp] at hwritten
          cases h
          exact hi.move rfl (fun _ _ => id) hwritten
      · cases h

end Steps

end Drain

end Cyros.Trace
