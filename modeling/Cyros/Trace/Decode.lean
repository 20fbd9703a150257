import Cyros.Lib.Frames
import Cyros.Lib.Run

/-!
# The decoder of a trace stream

`decode` of `cyros_trace.py`.  Its loop takes one packet after another off the byte string, a frame in the terms of
the library, and reads the fields of its payload.  Reading goes through `unpackFrom` and `byteAt`, which raise what
Python raises when the payload is too short: `struct.error` or `IndexError`.

* The meaning of a name's bytes, UTF-8 with replacement, is a parameter `text`: it is total, and nothing else of it
  matters.
* A dictionary is a function from its keys.

`decode_eq` splits the loop from what it does with the packets.  `decode_raises` says when an exception other than
`FormatError` escapes: exactly when a packet it comes to is shorter than the fields of its kind.
-/

namespace Cyros.Trace.Decode

open Cyros.Lib

/-! ### What it returns and raises -/

inductive FormatError where
  | noHeader
  | version (v : ℕ)
  | brokenRecords
  | empty
  deriving DecidableEq

def FormatError.message : FormatError → String
  | .noHeader => "not a cyros trace stream: it does not begin with a header"
  | .version v => "stream version " ++ toString v ++ ", and this reads version 1"
  | .brokenRecords => "a records packet that does not hold whole records"
  | .empty => "empty stream"

/-- What may be raised. -/
inductive Raised where
  | formatError (e : FormatError)
  | structError
  | indexError
  deriving DecidableEq

/-- `EVENTS`. -/
def events : List String :=
  ["thread_created", "thread_ready", "thread_running", "thread_blocked", "thread_terminated", "remote_wake",
    "mutex_acquired", "mutex_released", "user"]

def eventName (event : ℕ) : String := (events[event]?).getD ("event_" ++ toString event)

structure Record where
  timestamp : ℕ
  object : ℕ
  thread : ℕ
  event : String
  core : ℕ
  priority : ℕ
  recordedOn : ℕ
  index : ℕ
  deriving DecidableEq

structure Drop where
  core : ℕ
  total : ℕ
  after : ℕ
  deriving DecidableEq

structure Stream (τ : Type) where
  version : ℕ := 0
  cores : ℕ := 0
  timestampHz : ℕ := 0
  records : List Record := []
  drops : List Drop := []
  threadNames : ℕ → Option τ := fun _ => none
  objectNames : ℕ → Option τ := fun _ => none
  tagNames : ℕ → Option τ := fun _ => none
  skippedKinds : ℕ → ℕ := fun _ => 0
  truncated : Bool := false

inductive PacketKind where
  | header
  | records
  | dropped
  | threadName
  | objectName
  | tagName
  deriving DecidableEq

/-- `PACKET_HEADER` to `PACKET_TAG_NAME`. -/
def packetKind (tag : UInt8) : Option PacketKind :=
  if tag = 1 then some .header
  else if tag = 2 then some .records
  else if tag = 3 then some .dropped
  else if tag = 4 then some .threadName
  else if tag = 5 then some .objectName
  else if tag = 6 then some .tagName
  else none

/-! ### Reading a payload -/

/-- The bytes that `unpack_from` reads at an offset, for a format of this size. -/
def unpackFrom (payload : List UInt8) (offset size : ℕ) : Except Raised (List UInt8) :=
  if offset + size ≤ payload.length then .ok ((payload.drop offset).take size) else .error .structError

/-- `payload[i]`. -/
def byteAt (payload : List UInt8) (i : ℕ) : Except Raised UInt8 :=
  match payload[i]? with
  | some b => .ok b
  | none => .error .indexError

/-- An integer field of what was unpacked. -/
def field (bytes : List UInt8) (offset width : ℕ) : ℕ := ofLe ((bytes.drop offset).take width)

/-- `RECORD.unpack_from`: the record in 24 bytes of a packet of the core `on`. -/
def record (on index : ℕ) (bytes : List UInt8) : Record where
  timestamp := field bytes 0 8
  object := field bytes 8 8
  thread := field bytes 16 4
  event := eventName (field bytes 20 1)
  core := field bytes 21 1
  priority := field bytes 22 1
  recordedOn := on
  index := index

section Packets

variable {τ : Type} (text : List UInt8 → τ)

/-- The loop over the records of a packet, at the offsets `range(1, length, RECORD.size)`. -/
def Stream.addRecords (S : Stream τ) (on : ℕ) (payload : List UInt8) : Except Raised (Stream τ) :=
  (List.range ((payload.length - 1 + 23) / 24)).foldlM (fun S i => do
    let bytes ← unpackFrom payload (1 + 24 * i) 24
    return { S with records := S.records ++ [record on S.records.length bytes] }) S

/-- What is done with a packet. -/
def Stream.packet (S : Stream τ) (f : Frame) : Except Raised (Stream τ) :=
  match packetKind f.tag with
  | some .header => do
      let bytes ← unpackFrom f.payload 4 12
      if field bytes 0 2 ≠ 1 then throw (.formatError (.version (field bytes 0 2)))
      else return { S with
        version := field bytes 0 2
        cores := field bytes 2 2
        timestampHz := field bytes 4 8 }
  | some .records => do
      let on ← byteAt f.payload 0
      if (f.payload.length - 1) % 24 ≠ 0 then throw (.formatError .brokenRecords)
      else S.addRecords on.toNat f.payload
  | some .dropped => do
      let bytes ← unpackFrom f.payload 0 5
      return { S with drops := S.drops ++ [⟨field bytes 0 1, field bytes 1 4, S.records.length⟩] }
  | some .threadName => do
      let bytes ← unpackFrom f.payload 0 4
      return { S with
        threadNames := Function.update S.threadNames (field bytes 0 4) (some (text (f.payload.drop 4))) }
  | some .objectName => do
      let bytes ← unpackFrom f.payload 0 8
      return { S with
        objectNames := Function.update S.objectNames (field bytes 0 8) (some (text (f.payload.drop 8))) }
  | some .tagName => do
      let tag ← byteAt f.payload 0
      return { S with tagNames := Function.update S.tagNames tag.toNat (some (text (f.payload.drop 1))) }
  | none => return { S with
      skippedKinds := Function.update S.skippedKinds f.tag.toNat (S.skippedKinds f.tag.toNat + 1) }

/-- The variables of `decode`'s loop, but for its place in the bytes. -/
structure Decoding (τ : Type) where
  first : Bool
  stream : Stream τ

def start : Decoding τ := ⟨true, {}⟩

/-- `b"CYTR"`. -/
def magic : List UInt8 := [67, 89, 84, 82]

/-- The first packet is not the header. -/
def Decoding.NoHeader (D : Decoding τ) (f : Frame) : Prop :=
  D.first = true ∧ (f.tag ≠ 1 ∨ f.payload.take 4 ≠ magic)

instance (D : Decoding τ) (f : Frame) : Decidable (D.NoHeader f) :=
  inferInstanceAs (Decidable (_ ∧ _))

/-- The body of the loop, once the packet is taken off. -/
def accept (D : Decoding τ) (f : Frame) : Except Raised (Decoding τ) :=
  if D.NoHeader f then .error (.formatError .noHeader)
  else (D.stream.packet text f).map fun S => ⟨false, S⟩

def Decoding.cut (D : Decoding τ) : Decoding τ := { D with stream := { D.stream with truncated := true } }

/-- The loop.  Each turn takes some bytes off, so as many turns as there are bytes are enough. -/
def decodeLoop : ℕ → List UInt8 → Decoding τ → Except Raised (Decoding τ)
  | _, [], D => .ok D
  | 0, _ :: _, D => .ok D.cut
  | fuel + 1, b :: bs, D => match takeFrame (b :: bs) with
    | none => .ok D.cut
    | some (f, rest) => (accept text D f).bind fun D => decodeLoop fuel rest D

def Decoding.returns (D : Decoding τ) : Except Raised (Stream τ) :=
  if D.first then .error (.formatError .empty) else .ok D.stream

def decode (data : List UInt8) : Except Raised (Stream τ) :=
  (decodeLoop text data.length data start).bind Decoding.returns

/-! ### The packets of the input -/

/-- The end of the loop: the input is cut inside a packet, or not. -/
def Decoding.ends (cut : Bool) (D : Decoding τ) : Decoding τ := if cut then D.cut else D

theorem decodeLoop_eq (fuel : ℕ) (data : List UInt8) (D : Decoding τ) :
    decodeLoop text fuel data D =
      ((splitFuel fuel data).1.foldlM (accept text) D).map (Decoding.ends (splitFuel fuel data).2) := by
  induction fuel generalizing data D with
  | zero => cases data <;> rfl
  | succ fuel ih =>
      cases data with
      | nil => rfl
      | cons b bs =>
          rw [decodeLoop, splitFuel]
          cases takeFrame (b :: bs) with
          | none => rfl
          | some x =>
              obtain ⟨f, rest⟩ := x
              dsimp only
              rw [List.foldlM_cons]
              cases accept text D f with
              | error r => rfl
              | ok D' => exact ih rest D'

/-- **The packets, one after another**, and what is left over. -/
theorem decode_eq (data : List UInt8) :
    decode text data =
      (((split data).1.foldlM (accept text) start).map (Decoding.ends (split data).2)).bind
        Decoding.returns := by
  rw [decode, decodeLoop_eq, split]

/-! ### The reads of one packet -/

/-- The fields of a packet of each kind. -/
def shortest : PacketKind → ℕ
  | .header => 16
  | .records => 1
  | .dropped => 5
  | .threadName => 4
  | .objectName => 8
  | .tagName => 1

/-- The packet is as long as the fields of its kind. -/
def LongEnough (f : Frame) : Prop :=
  match packetKind f.tag with
  | some kind => shortest kind ≤ f.payload.length
  | none => True

instance (f : Frame) : Decidable (LongEnough f) :=
  match h : packetKind f.tag with
  | some kind => decidable_of_iff (shortest kind ≤ f.payload.length) (by rw [LongEnough, h])
  | none => isTrue (by rw [LongEnough, h]; trivial)

section Reads

variable {payload : List UInt8} {offset size : ℕ}

theorem unpackFrom_ok (h : offset + size ≤ payload.length) :
    unpackFrom payload offset size = .ok ((payload.drop offset).take size) := if_pos h

theorem unpackFrom_short (h : payload.length < offset + size) :
    unpackFrom payload offset size = .error .structError := if_neg (Nat.not_le.2 h)

theorem byteAt_nil : byteAt [] 0 = .error .indexError := rfl

theorem byteAt_cons (b : UInt8) (bs : List UInt8) : byteAt (b :: bs) 0 = .ok b := rfl

end Reads

variable {text}

/-- Whole records are all read. -/
theorem Stream.addRecords_ok (S : Stream τ) (on : ℕ) {payload : List UInt8} {n : ℕ}
    (hn : payload.length = 1 + 24 * n) :
    S.addRecords on payload = .ok { S with
      records := S.records ++ (List.range n).map fun i =>
        record on (S.records.length + i) ((payload.drop (1 + 24 * i)).take 24) } := by
  have hcount : (payload.length - 1 + 23) / 24 = n := by omega
  rw [Stream.addRecords, hcount]
  -- the first `m` of them, by induction on `m`
  suffices hfirst : ∀ m ≤ n, (List.range m).foldlM (fun (S : Stream τ) i => do
      let bytes ← unpackFrom payload (1 + 24 * i) 24
      return { S with records := S.records ++ [record on S.records.length bytes] }) S = .ok { S with
        records := S.records ++ (List.range m).map fun i =>
          record on (S.records.length + i) ((payload.drop (1 + 24 * i)).take 24) } from hfirst n (le_refl n)
  intro m hm
  induction m with
  | zero => simp [pure, Except.pure]
  | succ m ih =>
      have hread : unpackFrom payload (1 + 24 * m) 24 = .ok ((payload.drop (1 + 24 * m)).take 24) :=
        unpackFrom_ok (by omega)
      rw [List.range_succ, List.foldlM_append, ih (by omega)]
      simp only [bind, Except.bind, pure, Except.pure, List.foldlM_cons, List.foldlM_nil, hread]
      simp

section Kinds

variable (text) (S : Stream τ) {payload bytes : List UInt8}

theorem Stream.packet_header (hread : unpackFrom payload 4 12 = .ok bytes) (hversion : field bytes 0 2 = 1) :
    S.packet text ⟨1, payload⟩ = .ok { S with
      version := 1
      cores := field bytes 2 2
      timestampHz := field bytes 4 8 } := by
  have hkind : packetKind 1 = some .header := rfl
  simp only [Stream.packet, hkind, hread, bind, Except.bind, hversion]
  rfl

theorem Stream.packet_records (on : UInt8) {n : ℕ} (hn : bytes.length = 24 * n) :
    S.packet text ⟨2, on :: bytes⟩ = .ok { S with
      records := S.records ++ (List.range n).map fun i =>
        record on.toNat (S.records.length + i) ((bytes.drop (24 * i)).take 24) } := by
  have hkind : packetKind 2 = some .records := rfl
  have hlength : (on :: bytes).length = 1 + 24 * n := by
    rw [List.length_cons, hn, Nat.add_comm]
  have hdrop (i : ℕ) : (on :: bytes).drop (1 + 24 * i) = bytes.drop (24 * i) := by
    rw [Nat.add_comm, List.drop_succ_cons]
  simp only [Stream.packet, hkind, byteAt_cons, bind, Except.bind]
  rw [if_neg (by omega), S.addRecords_ok _ hlength]
  simp only [hdrop]

theorem Stream.packet_dropped (hread : unpackFrom payload 0 5 = .ok bytes) :
    S.packet text ⟨3, payload⟩ = .ok { S with
      drops := S.drops ++ [⟨field bytes 0 1, field bytes 1 4, S.records.length⟩] } := by
  have hkind : packetKind 3 = some .dropped := rfl
  simp only [Stream.packet, hkind, hread, bind, Except.bind]
  rfl

theorem Stream.packet_threadName (hread : unpackFrom payload 0 4 = .ok bytes) :
    S.packet text ⟨4, payload⟩ = .ok { S with
      threadNames := Function.update S.threadNames (field bytes 0 4) (some (text (payload.drop 4))) } := by
  have hkind : packetKind 4 = some .threadName := rfl
  simp only [Stream.packet, hkind, hread, bind, Except.bind]
  rfl

theorem Stream.packet_objectName (hread : unpackFrom payload 0 8 = .ok bytes) :
    S.packet text ⟨5, payload⟩ = .ok { S with
      objectNames := Function.update S.objectNames (field bytes 0 8) (some (text (payload.drop 8))) } := by
  have hkind : packetKind 5 = some .objectName := rfl
  simp only [Stream.packet, hkind, hread, bind, Except.bind]
  rfl

end Kinds

/-- **A packet that is long enough** raises nothing but a `FormatError`. -/
theorem Stream.packet_formatError {S : Stream τ} {f : Frame} (hlong : LongEnough f) {r : Raised}
    (h : S.packet text f = .error r) : ∃ e, r = .formatError e := by
  unfold LongEnough at hlong
  unfold Stream.packet at h
  cases hkind : packetKind f.tag with
  | none =>
      rw [hkind] at h
      cases h
  | some kind =>
      rw [hkind] at h hlong
      cases kind with
      | header =>
          have hread : unpackFrom f.payload 4 12 = _ := unpackFrom_ok hlong
          simp only [hread, bind, Except.bind] at h
          split at h
          · cases h
            exact ⟨_, rfl⟩
          · cases h
      | records =>
          obtain ⟨b, bs, hcons⟩ := List.exists_cons_of_length_pos (l := f.payload) hlong
          simp only [hcons, byteAt_cons, bind, Except.bind] at h
          split at h
          · cases h
            exact ⟨_, rfl⟩
          · next hwhole =>
            rw [List.length_cons] at hwhole
            rw [S.addRecords_ok (n := bs.length / 24) _ (by rw [List.length_cons]; omega)] at h
            cases h
      | dropped =>
          have hread : unpackFrom f.payload 0 5 = _ := unpackFrom_ok hlong
          simp only [hread, bind, Except.bind] at h
          cases h
      | threadName =>
          have hread : unpackFrom f.payload 0 4 = _ := unpackFrom_ok hlong
          simp only [hread, bind, Except.bind] at h
          cases h
      | objectName =>
          have hread : unpackFrom f.payload 0 8 = _ := unpackFrom_ok hlong
          simp only [hread, bind, Except.bind] at h
          cases h
      | tagName =>
          obtain ⟨b, bs, hcons⟩ := List.exists_cons_of_length_pos (l := f.payload) hlong
          simp only [hcons, byteAt_cons, bind, Except.bind] at h
          cases h

/-- **A packet that is too short** raises something else. -/
theorem Stream.packet_short (text : List UInt8 → τ) (S : Stream τ) {f : Frame} (hshort : ¬ LongEnough f) :
    S.packet text f = .error .structError ∨ S.packet text f = .error .indexError := by
  unfold LongEnough at hshort
  unfold Stream.packet
  cases hkind : packetKind f.tag with
  | none =>
      rw [hkind] at hshort
      exact absurd trivial hshort
  | some kind =>
      rw [hkind] at hshort
      have hlt : f.payload.length < shortest kind := Nat.not_le.1 hshort
      cases kind with
      | header =>
          have hread : unpackFrom f.payload 4 12 = _ := unpackFrom_short hlt
          simp only [hread, bind, Except.bind, true_or]
      | dropped =>
          have hread : unpackFrom f.payload 0 5 = _ := unpackFrom_short hlt
          simp only [hread, bind, Except.bind, true_or]
      | threadName =>
          have hread : unpackFrom f.payload 0 4 = _ := unpackFrom_short hlt
          simp only [hread, bind, Except.bind, true_or]
      | objectName =>
          have hread : unpackFrom f.payload 0 8 = _ := unpackFrom_short hlt
          simp only [hread, bind, Except.bind, true_or]
      | records =>
          have hnil : f.payload = [] := List.length_eq_zero_iff.1 (Nat.lt_one_iff.1 hlt)
          simp only [hnil, byteAt_nil, bind, Except.bind, or_true]
      | tagName =>
          have hnil : f.payload = [] := List.length_eq_zero_iff.1 (Nat.lt_one_iff.1 hlt)
          simp only [hnil, byteAt_nil, bind, Except.bind, or_true]

/-! ### What escapes -/

/-- The fields of the packet are there, unless the packet is refused as no header. -/
def Decoding.Readable (D : Decoding τ) (f : Frame) : Prop := ¬ D.NoHeader f → LongEnough f

instance (D : Decoding τ) (f : Frame) : Decidable (D.Readable f) :=
  inferInstanceAs (Decidable (_ → _))

/-- Nothing but a `FormatError` is raised. -/
def Clean {σ : Type} (x : Except Raised σ) : Prop := ∀ r, x = .error r → ∃ e, r = .formatError e

/-- The decoder as a guarded step: it stops where it raises. -/
def next (text : List UInt8 → τ) (D : Decoding τ) (f : Frame) : Option (Decoding τ) :=
  (accept text D f).toOption

theorem clean_accept_iff (text : List UInt8 → τ) (D : Decoding τ) (f : Frame) :
    Clean (accept text D f) ↔ D.Readable f := by
  unfold accept Decoding.Readable
  by_cases hno : D.NoHeader f
  · rw [if_pos hno]
    refine ⟨fun _ h => absurd hno h, fun _ r hr => ?_⟩
    cases hr
    exact ⟨_, rfl⟩
  · rw [if_neg hno]
    constructor
    · intro hclean _
      by_contra hshort
      rcases D.stream.packet_short text hshort with hr | hr
      · obtain ⟨e, he⟩ := hclean .structError (by rw [hr]; rfl)
        cases he
      · obtain ⟨e, he⟩ := hclean .indexError (by rw [hr]; rfl)
        cases he
    · intro hlong r hr
      cases hp : D.stream.packet text f with
      | ok S =>
          rw [hp] at hr
          cases hr
      | error r' =>
          rw [hp] at hr
          cases hr
          exact Stream.packet_formatError (hlong hno) hp

theorem clean_foldlM_iff (fs : List Frame) (D : Decoding τ) :
    Clean (fs.foldlM (accept text) D) ↔ Meets (next text) Decoding.Readable D fs := by
  induction fs generalizing D with
  | nil =>
      refine ⟨fun _ => trivial, fun _ r hr => ?_⟩
      cases hr
  | cons f fs ih =>
      have hfront := clean_accept_iff text D f
      rw [List.foldlM_cons, Meets, ← hfront, next]
      cases haccept : accept text D f with
      | ok D' =>
          have hok : Clean (Except.ok D' : Except Raised (Decoding τ)) := fun r hr => by cases hr
          exact ⟨fun h => ⟨hok, (ih D').1 h⟩, fun h => (ih D').2 h.2⟩
      | error r =>
          refine ⟨fun h => ⟨fun r' hr' => ?_, trivial⟩, fun h r' hr' => ?_⟩
          · cases hr'
            exact h r rfl
          · cases hr'
            exact h.1 r rfl

/-- **What escapes from `decode`.**  It returns a stream or raises a `FormatError`, and nothing else, exactly if each
packet it comes to holds the fields of its kind.  What it does is a matter of the packets that lie end to end from
the beginning of the input, each with the payload its length declares; what follows the last of them is not read. -/
theorem decode_raises (text : List UInt8 → τ) (data : List UInt8) :
    (Clean (decode text data) ↔ Meets (next text) Decoding.Readable start (split data).1) ∧
      ∃ tail, data = (split data).1.flatMap Frame.bytes ++ tail ∧
        decode text data =
          (((split data).1.foldlM (accept text) start).map (Decoding.ends (split data).2)).bind
            Decoding.returns := by
  obtain ⟨tail, hdata, -⟩ := split_sound data
  refine ⟨?_, tail, hdata, decode_eq text data⟩
  rw [decode_eq, ← clean_foldlM_iff]
  cases (split data).1.foldlM (accept text) start with
  | error r => exact ⟨fun h r' hr' => h r' (by cases hr'; rfl), fun h r' hr' => h r' (by cases hr'; rfl)⟩
  | ok D =>
      refine ⟨fun _ r hr => (by cases hr), fun _ r hr => ?_⟩
      -- after the loop only an input without a packet is refused
      simp only [Except.map, Except.bind, Decoding.returns] at hr
      split at hr
      · cases hr
        exact ⟨_, rfl⟩
      · cases hr

/-- A header packet of a core at a timestamp rate that is not known. -/
def header : List UInt8 := [1, 16, 0, 67, 89, 84, 82, 1, 0, 1, 0, 0, 0, 0, 0, 0, 0, 0, 0]

/-- **Two packets without a payload**: of the kind dropped, and of the kind records. -/
theorem decode_short_payload :
    decode id (header ++ [3, 0, 0]) = .error .structError ∧
      decode id (header ++ [2, 0, 0]) = .error .indexError ∧
      ¬ Clean (decode id (header ++ [3, 0, 0])) := by
  have hstruct : decode id (header ++ [3, 0, 0]) = .error .structError := rfl
  refine ⟨hstruct, rfl, fun hclean => ?_⟩
  obtain ⟨e, he⟩ := hclean _ hstruct
  cases he

end Packets

end Cyros.Trace.Decode
