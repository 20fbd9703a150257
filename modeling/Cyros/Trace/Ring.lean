import Cyros.Lib.Run
import Mathlib.Algebra.Ring.Nat
import Mathlib.Tactic.Ring

/-!
# The trace ring

`core_log` of one core: the core appends records, masked, and one reader takes them.  The two meet at the
counters `head` and `tail`, which are free-running and 32 bits wide, and at the slots.

* Each access of a counter is a step of its own, and so are the beginning and the end of the writing of a slot
  and the copying of each slot.  A slot holds `none` until it is first written, and while it is being written.
* Appends are masked, so that one ends before the next begins; reads are made by one reader.  Otherwise the
  steps of the two sides come in any order.
* `log` records the appends in order and what became of them, `taken` what the reader was given, and `reads` what
  each read was asked for, how many records were published when it looked, and how many it returned.

`trace_ring` says that what is taken is what was appended and kept, in order, for every size up to `2 ^ 31`.  With
the size `2 ^ 32` the difference of the counters never tells a full ring (`oldest_overwritten`).
-/

namespace Cyros.Trace

open Cyros.Lib

/-- What became of an append.  A record is lost with `unread` records in the ring when its append looked. -/
inductive Fate where
  | kept
  | lost (unread : ℕ)
  deriving DecidableEq

/-- Where `append_on_this_core` stands. -/
inductive Producer (α : Type) where
  | idle
  | headLoaded (r : α) (head : BitVec 32)
  | tailLoaded (r : α) (head tail : BitVec 32) (unread : ℕ)
  /-- The ring is full, and the count of the dropped is loaded. -/
  | countLoaded (r : α) (dropped : BitVec 32) (unread : ℕ)
  | writing (r : α) (head : BitVec 32)
  | written (r : α) (head : BitVec 32)

/-- Where `read` stands. -/
inductive Reader (α : Type) where
  | idle
  | tailLoaded (size : ℕ) (tail : BitVec 32)
  /-- It is to copy `count` records, and has copied `out`. -/
  | copying (size : ℕ) (tail : BitVec 32) (count published : ℕ) (out : List (Option α))

/-- A call of `read` that has returned. -/
structure ReadCall where
  size : ℕ
  published : ℕ
  count : ℕ

structure CoreLog (α : Type) where
  head : BitVec 32
  tail : BitVec 32
  dropped : BitVec 32
  slots : ℕ → Option α
  producer : Producer α
  reader : Reader α
  log : List (α × Fate)
  taken : List (Option α)
  reads : List ReadCall

inductive LogAct (α : Type) where
  /-- The core appends a record. -/
  | append (r : α)
  /-- The next step of the append under way. -/
  | produce
  /-- `read`, with a span of this size. -/
  | read (size : ℕ)
  /-- The next step of the read under way. -/
  | consume

/-- The slot of the `i`-th record. -/
def slot (size i : ℕ) : ℕ := i &&& (size - 1)

section Logs

variable {α : Type}

/-- The records that were kept, in append order. -/
def kept (log : List (α × Fate)) : List α := (log.filter fun x => x.2 = .kept).map Prod.fst

/-- The records that were dropped, in append order. -/
def lost (log : List (α × Fate)) : List α := (log.filter fun x => x.2 ≠ .kept).map Prod.fst

variable {log : List (α × Fate)} {r : α}

@[simp] theorem kept_kept : kept (log ++ [(r, .kept)]) = kept log ++ [r] := by
  simp [kept]

@[simp] theorem kept_lost {unread : ℕ} : kept (log ++ [(r, .lost unread)]) = kept log := by
  simp [kept]

@[simp] theorem lost_kept : lost (log ++ [(r, .kept)]) = lost log := by
  simp [lost]

@[simp] theorem lost_lost {unread : ℕ} : lost (log ++ [(r, .lost unread)]) = lost log ++ [r] := by
  simp [lost]

end Logs

namespace CoreLog

variable {α : Type}

/-- The records published and not yet given back to the core. -/
def unread (S : CoreLog α) : ℕ := (kept S.log).length - S.taken.length

/-- The next step of the append under way. -/
def produce (size : ℕ) (S : CoreLog α) : Option (CoreLog α) :=
  match S.producer with
  | .idle => none
  | .headLoaded r head => some { S with producer := .tailLoaded r head S.tail S.unread }
  | .tailLoaded r head tail unread =>
      if (head - tail).toNat = size then some { S with producer := .countLoaded r S.dropped unread }
      else some { S with
        producer := .writing r head
        slots := Function.update S.slots (slot size head.toNat) none }
  | .countLoaded r dropped unread => some { S with
      producer := .idle
      dropped := dropped + 1
      log := S.log ++ [(r, .lost unread)] }
  | .writing r head => some { S with
      producer := .written r head
      slots := Function.update S.slots (slot size head.toNat) (some r) }
  | .written r head => some { S with
      producer := .idle
      head := head + 1
      log := S.log ++ [(r, .kept)] }

/-- The next step of the read under way. -/
def consume (size : ℕ) (S : CoreLog α) : Option (CoreLog α) :=
  match S.reader with
  | .idle => none
  | .tailLoaded n tail =>
      some { S with reader := .copying n tail (min (S.head - tail).toNat n) S.unread [] }
  | .copying n tail count published out =>
      if out.length < count then
        let copied := S.slots (slot size (tail.toNat + out.length))
        some { S with reader := .copying n tail count published (out ++ [copied]) }
      else some { S with
        reader := .idle
        tail := tail + BitVec.ofNat 32 count
        taken := S.taken ++ out
        reads := S.reads ++ [⟨n, published, count⟩] }

def next (size : ℕ) (S : CoreLog α) : LogAct α → Option (CoreLog α)
  | .append r => match S.producer with
    | .idle => some { S with producer := .headLoaded r S.head }
    | _ => none
  | .produce => S.produce size
  | .read n => match S.reader with
    | .idle => some { S with reader := .tailLoaded n S.tail }
    | _ => none
  | .consume => S.consume size

def boot : CoreLog α where
  head := 0
  tail := 0
  dropped := 0
  slots := fun _ => none
  producer := .idle
  reader := .idle
  log := []
  taken := []
  reads := []

/-! ### What the two sides leave alone -/

section Frames

variable {size : ℕ} {S S' : CoreLog α}

/-- The core's steps touch nothing of the reader's, and log at most one append. -/
theorem produce_frame (h : S.produce size = some S') :
    S'.taken = S.taken ∧ S'.reader = S.reader ∧
      (S'.log = S.log ∨ ∃ r fate, S'.log = S.log ++ [(r, fate)]) := by
  unfold produce at h
  split at h
  · cases h
  · cases h
    exact ⟨rfl, rfl, Or.inl rfl⟩
  · split at h <;> cases h <;> exact ⟨rfl, rfl, Or.inl rfl⟩
  · cases h
    exact ⟨rfl, rfl, Or.inr ⟨_, _, rfl⟩⟩
  · cases h
    exact ⟨rfl, rfl, Or.inl rfl⟩
  · cases h
    exact ⟨rfl, rfl, Or.inr ⟨_, _, rfl⟩⟩

/-- The reader's steps leave the log alone. -/
theorem consume_frame (h : S.consume size = some S') :
    S'.log = S.log ∧ S.taken.length ≤ S'.taken.length ∧ S.reader ≠ .idle := by
  unfold consume at h
  split at h
  · cases h
  · next hr =>
    cases h
    exact ⟨rfl, le_refl _, by simp [hr]⟩
  · next hr =>
    dsimp only at h
    split at h
    · cases h
      exact ⟨rfl, le_refl _, by simp [hr]⟩
    · cases h
      refine ⟨rfl, ?_, by simp [hr]⟩
      rw [List.length_append]
      exact Nat.le_add_right _ _

end Frames

/-! ### Slots -/

theorem slot_two_pow (k i : ℕ) : slot (2 ^ k) i = i % 2 ^ k := Nat.and_two_pow_sub_one_eq_mod i k

/-- The wrap of a 32-bit counter is seen by no slot. -/
theorem slot_mod {k : ℕ} (hk : k ≤ 32) (i j : ℕ) : slot (2 ^ k) (i % 2 ^ 32 + j) = slot (2 ^ k) (i + j) := by
  rw [slot_two_pow, slot_two_pow, Nat.add_mod, Nat.mod_mod_of_dvd i (pow_dvd_pow 2 hk), ← Nat.add_mod]

/-- Less than a ring apart, two records have different slots. -/
theorem slot_ne {k i j : ℕ} (hlt : j < i) (hsize : i < j + 2 ^ k) : slot (2 ^ k) j ≠ slot (2 ^ k) i := by
  rw [slot_two_pow, slot_two_pow]
  intro heq
  have hzero := Nat.sub_mod_eq_zero_of_mod_eq heq.symm
  have hle := Nat.le_of_dvd (by omega) (Nat.dvd_of_mod_eq_zero hzero)
  omega

/-- **The difference of the counters** is the number of records between them. -/
theorem toNat_sub {a b : ℕ} (hle : b ≤ a) (hlt : a < b + 2 ^ 32) :
    (BitVec.ofNat 32 a - BitVec.ofNat 32 b).toNat = a - b := by
  rw [BitVec.toNat_sub, BitVec.toNat_ofNat, BitVec.toNat_ofNat]
  omega

/-! ### The invariant -/

/-- What the append under way knows. -/
def ProducerOk (size : ℕ) (S : CoreLog α) : Prop :=
  match S.producer with
  | .idle => True
  | .headLoaded _ head => head = S.head
  | .tailLoaded _ head tail unread => head = S.head ∧ ∃ b, tail = BitVec.ofNat 32 b ∧ b ≤ S.taken.length ∧
      (kept S.log).length ≤ b + size ∧ unread = (kept S.log).length - b
  | .countLoaded _ dropped unread => dropped = S.dropped ∧ unread = size
  | .writing _ head => head = S.head ∧ (kept S.log).length < S.taken.length + size
  | .written r head => head = S.head ∧ (kept S.log).length < S.taken.length + size ∧
      S.slots (slot size (kept S.log).length) = some r

/-- What the read under way knows. -/
def ReaderOk (S : CoreLog α) : Prop :=
  match S.reader with
  | .idle => True
  | .tailLoaded _ tail => tail = S.tail
  | .copying n tail count published out => tail = S.tail ∧ count = min n published ∧ out.length ≤ count ∧
      S.taken.length + count ≤ (kept S.log).length ∧
      S.taken ++ out = ((kept S.log).take (S.taken.length + out.length)).map some

structure Inv (size : ℕ) (S : CoreLog α) : Prop where
  head : S.head = BitVec.ofNat 32 (kept S.log).length
  tail : S.tail = BitVec.ofNat 32 S.taken.length
  dropped : S.dropped = BitVec.ofNat 32 (lost S.log).length
  order : S.taken = ((kept S.log).take S.taken.length).map some
  low : S.taken.length ≤ (kept S.log).length
  high : (kept S.log).length ≤ S.taken.length + size
  slots : ∀ j r, S.taken.length ≤ j → (kept S.log)[j]? = some r → S.slots (slot size j) = some r
  full : ∀ r u, (r, Fate.lost u) ∈ S.log → u = size
  reads : ∀ c ∈ S.reads, c.count = min c.size c.published
  producer : S.ProducerOk size
  reader : S.ReaderOk

theorem inv_boot (size : ℕ) : Inv size (boot : CoreLog α) where
  head := rfl
  tail := rfl
  dropped := rfl
  order := rfl
  low := le_refl _
  high := Nat.zero_le _
  slots := by
    intro j r _ h
    simp [boot, kept] at h
  full := by
    intro r u h
    cases h
  reads := by
    intro c h
    cases h
  producer := trivial
  reader := trivial

variable {k : ℕ} {S S' : CoreLog α}

/-- More records kept change nothing for the read under way. -/
theorem ReaderOk.append {x : α × Fate} (h : S.ReaderOk) (producer : Producer α) (slots : ℕ → Option α)
    (head dropped : BitVec 32) (hkept : kept S.log <+: kept (S.log ++ [x])) :
    ReaderOk { S with
      producer := producer
      slots := slots
      head := head
      dropped := dropped
      log := S.log ++ [x] } := by
  unfold ReaderOk at h ⊢
  dsimp only
  split at h
  · trivial
  · exact h
  · next n tail count published out hr =>
    obtain ⟨htail, hcount, hlen, hle, htaken⟩ := h
    refine ⟨htail, hcount, hlen, le_trans hle hkept.length_le, ?_⟩
    obtain ⟨more, hmore⟩ := hkept
    rw [htaken, ← hmore, List.take_append_of_le_length (by omega)]

section Steps

variable (hk : k ≤ 31)

include hk

theorem two_pow_lt : 2 ^ k < 2 ^ 32 := Nat.pow_lt_pow_right (by decide) (by omega)

/-- A slot beyond the last record is rewritten. -/
theorem Inv.slots_update (hi : Inv (2 ^ k) S) (hroom : (kept S.log).length < S.taken.length + 2 ^ k)
    (y : Option α) (j : ℕ) (r : α) (hj : S.taken.length ≤ j) (hr : (kept S.log)[j]? = some r) :
    Function.update S.slots (slot (2 ^ k) S.head.toNat) y (slot (2 ^ k) j) = some r := by
  obtain ⟨hlt, -⟩ := List.getElem?_eq_some_iff.1 hr
  have hhead : slot (2 ^ k) S.head.toNat = slot (2 ^ k) (kept S.log).length := by
    rw [hi.head, BitVec.toNat_ofNat]
    exact slot_mod (by omega) _ 0
  rw [hhead, Function.update_of_ne (slot_ne hlt (by omega)), hi.slots j r hj hr]

theorem Inv.produce (hi : Inv (2 ^ k) S) (h : S.produce (2 ^ k) = some S') : Inv (2 ^ k) S' := by
  have hp := hi.producer
  have hsize := two_pow_lt hk
  have hlow := hi.low
  have hhigh := hi.high
  unfold CoreLog.produce at h
  unfold ProducerOk at hp
  split at h
  · cases h
  · next r head heq =>
    rw [heq] at hp
    cases h
    exact { hi with producer := ⟨hp, S.taken.length, hi.tail, le_refl _, hhigh, rfl⟩ }
  · next r head tail unread heq =>
    rw [heq] at hp
    obtain ⟨hhead, b, htail, hb, hroom, hunread⟩ := hp
    have hdiff : (head - tail).toNat = (kept S.log).length - b := by
      rw [hhead, htail, hi.head]
      exact toNat_sub (le_trans hb hlow) (by omega)
    rw [hdiff] at h
    split at h
    · next hfull =>
      cases h
      exact { hi with producer := ⟨rfl, hunread.trans hfull⟩ }
    · next hfull =>
      cases h
      have hlt : (kept S.log).length < S.taken.length + 2 ^ k := by omega
      rw [hhead]
      exact { hi with
        slots := hi.slots_update hk hlt none
        producer := ⟨rfl, hlt⟩ }
  · next r dropped unread heq =>
    rw [heq] at hp
    obtain ⟨rfl, rfl⟩ := hp
    cases h
    exact {
      head := by simpa using hi.head
      tail := hi.tail
      dropped := by simp [hi.dropped, BitVec.ofNat_add]
      order := by simpa using hi.order
      low := by simpa using hi.low
      high := by simpa using hi.high
      slots := by simpa using hi.slots
      full := by
        intro r' u hmem
        rcases List.mem_append.1 hmem with hold | hnew
        · exact hi.full r' u hold
        · simp at hnew
          exact hnew.2
      reads := hi.reads
      producer := trivial
      reader := hi.reader.append (x := (r, .lost (2 ^ k))) _ _ _ _ (by simp) }
  · next r head heq =>
    rw [heq] at hp
    obtain ⟨rfl, hlt⟩ := hp
    cases h
    refine { hi with
      slots := hi.slots_update hk hlt (some r)
      producer := ⟨rfl, hlt, ?_⟩ }
    have hhead : slot (2 ^ k) S.head.toNat = slot (2 ^ k) (kept S.log).length := by
      rw [hi.head, BitVec.toNat_ofNat]
      exact slot_mod (by omega) _ 0
    show Function.update S.slots _ _ (slot (2 ^ k) (kept S.log).length) = some r
    rw [← hhead, Function.update_self]
  · next r head heq =>
    rw [heq] at hp
    obtain ⟨rfl, hlt, hslot⟩ := hp
    cases h
    exact {
      head := by simp [hi.head, BitVec.ofNat_add]
      tail := hi.tail
      dropped := by simpa using hi.dropped
      order := by
        rw [kept_kept, List.take_append_of_le_length hlow]
        exact hi.order
      low := by simp; omega
      high := by simp; omega
      slots := by
        intro j r' hj hr
        rw [kept_kept] at hr
        rcases Nat.lt_or_ge j (kept S.log).length with hjlt | hjge
        · rw [List.getElem?_append_left hjlt] at hr
          exact hi.slots j r' hj hr
        · -- the record that is published now
          rw [List.getElem?_append_right hjge] at hr
          obtain ⟨hone, hr⟩ := List.getElem?_eq_some_iff.1 hr
          have hj0 : j = (kept S.log).length := by simp at hone; omega
          subst hj0
          simp at hr
          rw [← hr]
          exact hslot
      full := by
        intro r' u hmem
        rcases List.mem_append.1 hmem with hold | hnew
        · exact hi.full r' u hold
        · simp at hnew
      reads := hi.reads
      producer := trivial
      reader := hi.reader.append (x := (r, .kept)) _ _ _ _ (by simp) }

omit hk in
/-- The read gives records back: the append under way may find more room. -/
theorem ProducerOk.release {m : ℕ} (h : S.ProducerOk (2 ^ k)) (reader : Reader α) (tail : BitVec 32)
    (taken : List (Option α)) (reads : List ReadCall) (htaken : taken.length = S.taken.length + m) :
    ProducerOk (2 ^ k) { S with reader := reader, tail := tail, taken := taken, reads := reads } := by
  unfold ProducerOk at h ⊢
  dsimp only
  split at h
  · trivial
  · exact h
  · obtain ⟨hhead, b, hb, hle, hrest⟩ := h
    exact ⟨hhead, b, hb, by omega, hrest⟩
  · exact h
  · exact ⟨h.1, by omega⟩
  · exact ⟨h.1, by omega, h.2.2⟩

theorem Inv.consume (hi : Inv (2 ^ k) S) (h : S.consume (2 ^ k) = some S') : Inv (2 ^ k) S' := by
  have hr := hi.reader
  have hsize := two_pow_lt hk
  have hlow := hi.low
  have hhigh := hi.high
  unfold CoreLog.consume at h
  unfold ReaderOk at hr
  split at h
  · cases h
  · next n tail heq =>
    rw [heq] at hr
    cases h
    have hdiff : (S.head - tail).toNat = S.unread := by
      rw [hr, hi.head, hi.tail]
      exact toNat_sub hlow (by omega)
    refine { hi with reader := ?_ }
    rw [hdiff]
    have hunread : S.unread = (kept S.log).length - S.taken.length := rfl
    have hle : S.taken.length + min S.unread n ≤ (kept S.log).length := by omega
    refine ⟨hr, Nat.min_comm _ _, Nat.zero_le _, hle, ?_⟩
    rw [List.append_nil]
    exact hi.order
  · next n tail count published out heq =>
    rw [heq] at hr
    obtain ⟨htail, hcount, hlen, hle, htaken⟩ := hr
    dsimp only at h
    split at h
    · next hmore =>
      cases h
      refine { hi with reader := ⟨htail, hcount, ?_, hle, ?_⟩ }
      · rw [List.length_append]
        exact hmore
      · -- the next record is published, so its slot holds it
        have hlt : S.taken.length + out.length < (kept S.log).length := by omega
        have hslot := hi.slots (S.taken.length + out.length) _ (by omega) (List.getElem?_eq_getElem hlt)
        have hindex : slot (2 ^ k) (tail.toNat + out.length) = slot (2 ^ k) (S.taken.length + out.length) := by
          rw [htail, hi.tail, BitVec.toNat_ofNat]
          exact slot_mod (by omega) _ _
        rw [hindex, hslot, ← List.append_assoc, htaken, List.length_append, List.length_singleton,
          ← Nat.add_assoc, List.take_add_one, List.getElem?_eq_getElem hlt, List.map_append]
        rfl
    · next hdone =>
      have hout : out.length = count := by omega
      cases h
      have hlength : (S.taken ++ out).length = S.taken.length + count := by
        rw [List.length_append, hout]
      exact {
        head := hi.head
        tail := by rw [htail, hi.tail, hlength, BitVec.ofNat_add]
        dropped := hi.dropped
        order := by
          rw [hlength, ← hout]
          exact htaken
        low := by rw [hlength]; exact hle
        high := by
          rw [hlength]
          exact le_trans hhigh (by omega)
        slots := by
          intro j r hj
          rw [hlength] at hj
          exact hi.slots j r (by omega)
        full := hi.full
        reads := by
          intro c hc
          rcases List.mem_append.1 hc with hold | hnew
          · exact hi.reads c hold
          · rw [List.mem_singleton] at hnew
            rw [hnew]
            exact hcount
        producer := hi.producer.release _ _ _ _ hlength
        reader := trivial }

/-- **One step keeps the invariant.** -/
theorem Inv.next (hi : Inv (2 ^ k) S) {act : LogAct α} (h : S.next (2 ^ k) act = some S') :
    Inv (2 ^ k) S' := by
  cases act with
  | append r =>
      simp only [CoreLog.next] at h
      split at h
      · cases h
        exact { hi with producer := rfl }
      · cases h
  | produce => exact hi.produce hk h
  | read n =>
      simp only [CoreLog.next] at h
      split at h
      · cases h
        exact { hi with reader := rfl }
      · cases h
  | consume => exact hi.consume hk h

end Steps

/-- **The trace ring**, of any power of two up to `2 ^ 31`.  In every state of every run the records kept are those
taken, each once and in append order, followed by those in the ring, of which there are never more than the size;
the records that were not kept are counted; each of them was lost with the ring full; and each read returned the
smaller of its span and the records published. -/
theorem trace_ring (hk : k ≤ 31) (acts : List (LogAct α)) (hrun : run (next (2 ^ k)) boot acts = some S) :
    (∃ released unread, kept S.log = released ++ unread ∧ S.taken = released.map some ∧
        unread.length = (S.head - S.tail).toNat ∧ unread.length ≤ 2 ^ k) ∧
      ((lost S.log).length < 2 ^ 32 → S.dropped.toNat = (lost S.log).length) ∧
      (∀ r u, (r, Fate.lost u) ∈ S.log → u = 2 ^ k) ∧
      ∀ c ∈ S.reads, c.count = min c.size c.published := by
  have hi : Inv (2 ^ k) S := run_invariant (I := Inv (2 ^ k)) (fun _ _ _ hi h => hi.next hk h)
    (inv_boot _) hrun
  have hlow := hi.low
  have hhigh := hi.high
  have hsize := two_pow_lt hk
  refine ⟨⟨(kept S.log).take S.taken.length, (kept S.log).drop S.taken.length, ?_, hi.order, ?_, ?_⟩, ?_,
    hi.full, hi.reads⟩
  · rw [List.take_append_drop]
  · rw [List.length_drop, hi.head, hi.tail, toNat_sub hlow (by omega)]
  · rw [List.length_drop]
    omega
  · intro hlt
    rw [hi.dropped, BitVec.toNat_ofNat, Nat.mod_eq_of_lt hlt]

/-- Three records come to a ring of two, and the third is lost; a read takes the other two. -/
def lossyRun : List (LogAct ℕ) :=
  [.append 10, .produce, .produce, .produce, .produce, .append 11, .produce, .produce, .read 16, .produce,
    .produce, .append 12, .produce, .produce, .consume, .produce, .consume, .consume, .consume]

theorem trace_ring_lossyRun :
    ∃ S : CoreLog ℕ, run (next (2 ^ 1)) boot lossyRun = some S ∧ S.taken = [some 10, some 11] ∧
      S.log = [(10, .kept), (11, .kept), (12, .lost 2)] ∧ S.dropped.toNat = (lost S.log).length := by
  have heval : (run (next (2 ^ 1)) boot lossyRun).map (fun S => (S.taken, S.log)) =
      some ([some 10, some 11], [(10, .kept), (11, .kept), (12, .lost 2)]) := rfl
  obtain ⟨S, hS, hv⟩ := Option.map_eq_some_iff.mp heval
  simp only [Prod.mk.injEq] at hv
  obtain ⟨htaken, hlog⟩ := hv
  refine ⟨S, hS, htaken, hlog, (trace_ring (by decide) _ hS).2.1 ?_⟩
  rw [hlog]
  decide

/-! ### A ring as large as the range of its counters -/

section TooLarge

/-- A whole append into a ring of `2 ^ 32`: the ring is never found full. -/
def wholeAppend (r : α) : List (LogAct α) := [.append r, .produce, .produce, .produce, .produce]

theorem run_wholeAppend (hp : S.producer = .idle) (r : α) :
    run (next (2 ^ 32)) S (wholeAppend r) = some { S with
      head := S.head + 1
      slots := Function.update S.slots (slot (2 ^ 32) S.head.toNat) (some r)
      log := S.log ++ [(r, .kept)] } := by
  have hne : ∀ b : BitVec 32, b.toNat ≠ 2 ^ 32 := fun b => Nat.ne_of_lt b.isLt
  simp only [wholeAppend, run, next, CoreLog.produce, hp, Option.bind_some, if_neg (hne _),
    Function.update_idem]

/-- The ring after one record `true` and `m` records `false`, with nothing taken. -/
structure Filled (S : CoreLog Bool) (m : ℕ) : Prop where
  head : S.head = BitVec.ofNat 32 (m + 1)
  tail : S.tail = 0
  idle : S.producer = .idle ∧ S.reader = .idle
  log : S.log = (true, .kept) :: List.replicate m (false, .kept)
  taken : S.taken = []

theorem Filled.fates {S : CoreLog Bool} {m : ℕ} (h : Filled S m) :
    lost (S.log ++ [(false, .kept)]) = [] ∧ (kept (S.log ++ [(false, .kept)])).head? = some true := by
  rw [h.log]
  constructor
  · simp [lost]
  · simp [kept]

theorem exists_filled (m : ℕ) : ∃ acts S, run (next (2 ^ 32)) boot acts = some S ∧ Filled S m := by
  induction m with
  | zero => exact ⟨wholeAppend true, _, run_wholeAppend rfl true, rfl, rfl, ⟨rfl, rfl⟩, rfl, rfl⟩
  | succ m ih =>
      obtain ⟨acts, S, hS, hf⟩ := ih
      have hnew : run (next (2 ^ 32)) boot (acts ++ wholeAppend false) = _ := run_append boot acts _
      rw [hS, Option.bind_some, run_wholeAppend hf.idle.1] at hnew
      refine ⟨_, _, hnew, ?_, hf.tail, hf.idle, ?_, hf.taken⟩
      · show S.head + 1 = _
        rw [hf.head]
        exact (BitVec.ofNat_add (m + 1) 1).symm
      · show S.log ++ _ = _
        rw [hf.log, List.replicate_succ', List.cons_append]

/-- A read of one record, from a ring with one record. -/
theorem run_readOne (hhead : S.head = 1) (htail : S.tail = 0) (hr : S.reader = .idle) :
    run (next (2 ^ 32)) S [.read 1, .consume, .consume, .consume] = some { S with
      reader := .idle
      tail := 0 + BitVec.ofNat 32 1
      taken := S.taken ++ [S.slots 0]
      reads := S.reads ++ [⟨1, S.unread, 1⟩] } := by
  have hcount : min ((1 : BitVec 32) - 0).toNat 1 = 1 := rfl
  have hslot : slot (2 ^ 32) ((0 : BitVec 32).toNat + 0) = 0 := Nat.zero_and _
  simp only [run, next, CoreLog.consume, hhead, htail, hr, hcount, Option.bind_some, List.length_nil,
    Nat.zero_lt_one, if_true, List.nil_append, List.length_singleton, Nat.lt_irrefl, if_false, hslot]
  rfl

/-- **A ring of `2 ^ 32`**: after one record more than it holds the oldest is overwritten, no record counts as
dropped, and the reader gets the newest record in the oldest's place. -/
theorem oldest_overwritten :
    ∃ (acts : List (LogAct Bool)) (S : CoreLog Bool), run (next (2 ^ 32)) boot acts = some S ∧
      lost S.log = [] ∧ S.taken = [some false] ∧ (kept S.log).head? = some true := by
  obtain ⟨acts, S, hS, hf⟩ := exists_filled (2 ^ 32 - 1)
  have hhead : S.head = 0 := hf.head
  have hnew := run_wholeAppend hf.idle.1 false
  rw [hhead] at hnew
  have hslot : slot (2 ^ 32) (BitVec.toNat (0 : BitVec 32)) = 0 := Nat.zero_and _
  rw [hslot] at hnew
  have hread := run_readOne (S := { S with
    head := 0 + 1
    slots := Function.update S.slots 0 (some false)
    log := S.log ++ [(false, .kept)] }) rfl hf.tail hf.idle.2
  have hrun : run (next (2 ^ 32)) boot
      (acts ++ (wholeAppend false ++ [.read 1, .consume, .consume, .consume])) = _ := run_append boot acts _
  rw [hS, Option.bind_some, run_append S, hnew, Option.bind_some, hread] at hrun
  refine ⟨_, _, hrun, hf.fates.1, ?_, hf.fates.2⟩
  show S.taken ++ [Function.update S.slots 0 (some false) 0] = _
  rw [hf.taken, Function.update_self]
  rfl

end TooLarge

end CoreLog

end Cyros.Trace
