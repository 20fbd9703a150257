import Cyros.Trace.Decode
import Mathlib.Tactic.NormNum

/-!
# The trace stream, written and read back

`stream_writer`: the header, the names, and the drains that move what the trace buffers hold into packets of at most
sixteen records.

* A `Packet` is what a packet says; `Packet.buffer` builds it field by field as the writer does, in a buffer of
  `Packet.maxPayload` bytes, and `finish` puts the head in front.
* What the buffers hold and how many records they have dropped is left open: a `Visit` is what one drain of a core
  finds, read by read.
* `taken` records what the reads of the buffers gave, in the order of the drains, and `losses` the totals reported,
  each with the number of records taken by then.  No step reads them.

`packet_adds` is the round trip of one packet.  `stream_round_trip` is that of a stream, cut anywhere.
-/

namespace Cyros.Trace

open Cyros.Lib

/-! ### Records -/

/-- `trace::event`. -/
inductive Event where
  | threadCreated
  | threadReady
  | threadRunning
  | threadBlocked
  | threadTerminated
  | remoteWake
  | mutexAcquired
  | mutexReleased
  | user
  deriving DecidableEq

/-- The value of the enumerator. -/
def Event.code : Event → UInt8
  | .threadCreated => 0
  | .threadReady => 1
  | .threadRunning => 2
  | .threadBlocked => 3
  | .threadTerminated => 4
  | .remoteWake => 5
  | .mutexAcquired => 6
  | .mutexReleased => 7
  | .user => 8

/-- The enumerator as the source spells it. -/
def Event.name : Event → String
  | .threadCreated => "thread_created"
  | .threadReady => "thread_ready"
  | .threadRunning => "thread_running"
  | .threadBlocked => "thread_blocked"
  | .threadTerminated => "thread_terminated"
  | .remoteWake => "remote_wake"
  | .mutexAcquired => "mutex_acquired"
  | .mutexReleased => "mutex_released"
  | .user => "user"

/-- The decoder's table agrees with the enumeration. -/
theorem eventName_code (e : Event) : Decode.eventName e.code.toNat = e.name := by
  cases e <;> rfl

structure Record where
  timestamp : UInt64
  object : UInt64
  thread : UInt32
  what : Event
  core : UInt8
  priority : UInt8
  reserved : UInt8

/-- What the decoder is to make of a record of the core `on`, the `index`-th of the stream. -/
def Record.decoded (on index : ℕ) (r : Record) : Decode.Record where
  timestamp := r.timestamp.toNat
  object := r.object.toNat
  thread := r.thread.toNat
  event := r.what.name
  core := r.core.toNat
  priority := r.priority.toNat
  recordedOn := on
  index := index

def recordsPerPacket : ℕ := 16

def maxName : ℕ := 64

/-- What one `read` gives. -/
abbrev Chunk : Type := { rs : List Record // rs.length ≤ recordsPerPacket }

/-! ### Packets -/

/-- `trace::packet`. -/
def Decode.PacketKind.code : Decode.PacketKind → UInt8
  | .header => 1
  | .records => 2
  | .dropped => 3
  | .threadName => 4
  | .objectName => 5
  | .tagName => 6

/-- `packet_buffer`: the kind, and what is behind the head. -/
structure PacketBuffer where
  kind : Decode.PacketKind
  payload : List UInt8 := []

namespace PacketBuffer

def u8 (out : PacketBuffer) (value : UInt8) : PacketBuffer := { out with payload := out.payload ++ [value] }

def littleEndian (out : PacketBuffer) (value width : ℕ) : PacketBuffer :=
  { out with payload := out.payload ++ leBytes width value }

def u16 (out : PacketBuffer) (value : UInt16) : PacketBuffer := out.littleEndian value.toNat 2

def u32 (out : PacketBuffer) (value : UInt32) : PacketBuffer := out.littleEndian value.toNat 4

def u64 (out : PacketBuffer) (value : UInt64) : PacketBuffer := out.littleEndian value.toNat 8

def bytes (out : PacketBuffer) (value : List UInt8) : PacketBuffer :=
  { out with payload := out.payload ++ value }

def name (out : PacketBuffer) (value : List UInt8) : PacketBuffer := out.bytes (value.take maxName)

def record (out : PacketBuffer) (r : Record) : PacketBuffer :=
  ((((((out.u64 r.timestamp).u64 r.object).u32 r.thread).u8 r.what.code).u8 r.core).u8 r.priority).u8 r.reserved

def finish (out : PacketBuffer) : List UInt8 :=
  out.kind.code :: UInt8.ofNat (out.payload.length &&& 0xFF) :: UInt8.ofNat (out.payload.length >>> 8) ::
    out.payload

def frame (out : PacketBuffer) : Frame := ⟨out.kind.code, out.payload⟩

theorem finish_eq (out : PacketBuffer) : out.finish = out.frame.bytes := by
  have hhigh (n : ℕ) : UInt8.ofNat n = UInt8.ofNat (n &&& 0xFF) := by
    apply UInt8.toNat_inj.1
    rw [UInt8.toNat_ofNat', UInt8.toNat_ofNat', show n &&& 0xFF = n % 256 from
      Nat.and_two_pow_sub_one_eq_mod n 8]
    exact (Nat.mod_mod _ _).symm
  unfold finish
  rw [hhigh (_ >>> 8)]
  rfl

end PacketBuffer

/-- What a packet says. -/
inductive Packet where
  | header (cores : UInt16) (timestampHz : UInt64)
  | records (core : UInt8) (chunk : Chunk)
  | dropped (core : UInt8) (total : UInt32)
  | threadName (thread : UInt32) (name : List UInt8)
  | objectName (object : UInt64) (name : List UInt8)
  | tagName (tag : UInt8) (name : List UInt8)

namespace Packet

def buffer : Packet → PacketBuffer
  | .header cores timestampHz =>
      ((({ kind := .header : PacketBuffer }.bytes [0x43, 0x59, 0x54, 0x52]).u16 1).u16 cores).u64 timestampHz
  | .records core chunk => chunk.val.foldl PacketBuffer.record ({ kind := .records : PacketBuffer }.u8 core)
  | .dropped core total => ({ kind := .dropped : PacketBuffer }.u8 core).u32 total
  | .threadName thread name => ({ kind := .threadName : PacketBuffer }.u32 thread).name name
  | .objectName object name => ({ kind := .objectName : PacketBuffer }.u64 object).name name
  | .tagName tag name => ({ kind := .tagName : PacketBuffer }.u8 tag).name name

/-- The room of the buffer a packet is built in. -/
def maxPayload : Packet → ℕ
  | .header .. => 16
  | .records .. => 1 + recordsPerPacket * 24
  | .dropped .. => 5
  | .threadName .. => 4 + maxName
  | .objectName .. => 8 + maxName
  | .tagName .. => 1 + maxName

/-- The bytes the sink is given. -/
def bytes (p : Packet) : List UInt8 := p.buffer.finish

end Packet

/-- The 24 bytes of a record. -/
def Record.bytes (r : Record) : List UInt8 :=
  leBytes 8 r.timestamp.toNat ++ (leBytes 8 r.object.toNat ++ (leBytes 4 r.thread.toNat ++
    [r.what.code, r.core, r.priority, r.reserved]))

theorem Record.length_bytes (r : Record) : r.bytes.length = 24 := by
  simp [Record.bytes]

theorem PacketBuffer.payload_record (out : PacketBuffer) (r : Record) :
    (out.record r).payload = out.payload ++ r.bytes := by
  simp [PacketBuffer.record, PacketBuffer.u64, PacketBuffer.u32, PacketBuffer.u8, PacketBuffer.littleEndian,
    Record.bytes]

theorem PacketBuffer.kind_record (out : PacketBuffer) (r : Record) : (out.record r).kind = out.kind := rfl

theorem PacketBuffer.foldl_record (out : PacketBuffer) (rs : List Record) :
    rs.foldl PacketBuffer.record out = { out with payload := out.payload ++ rs.flatMap Record.bytes } := by
  induction rs generalizing out with
  | nil => simp
  | cons r rs ih =>
      rw [List.foldl_cons, ih, PacketBuffer.payload_record, PacketBuffer.kind_record, List.flatMap_cons,
        List.append_assoc]

theorem length_flatMap_bytes (rs : List Record) : (rs.flatMap Record.bytes).length = 24 * rs.length := by
  induction rs with
  | nil => rfl
  | cons r rs ih =>
      rw [List.flatMap_cons, List.length_append, ih, r.length_bytes, List.length_cons]
      omega

/-- **No packet is larger than the buffer** it is built in. -/
theorem Packet.payload_le (p : Packet) : p.buffer.payload.length ≤ p.maxPayload := by
  cases p with
  | header cores timestampHz =>
      simp [Packet.buffer, Packet.maxPayload, PacketBuffer.bytes, PacketBuffer.u16, PacketBuffer.u64,
        PacketBuffer.littleEndian]
  | records core chunk =>
      have hchunk := chunk.property
      rw [Packet.buffer, PacketBuffer.foldl_record]
      simp only [PacketBuffer.u8, List.length_append, length_flatMap_bytes, Packet.maxPayload, List.length_cons,
        List.length_nil]
      omega
  | dropped core total =>
      simp [Packet.buffer, Packet.maxPayload, PacketBuffer.u8, PacketBuffer.u32, PacketBuffer.littleEndian]
  | threadName thread name =>
      simp [Packet.buffer, Packet.maxPayload, PacketBuffer.name, PacketBuffer.bytes, PacketBuffer.u32,
        PacketBuffer.littleEndian]
  | objectName object name =>
      simp [Packet.buffer, Packet.maxPayload, PacketBuffer.name, PacketBuffer.bytes, PacketBuffer.u64,
        PacketBuffer.littleEndian]
  | tagName tag name =>
      simp only [Packet.buffer, PacketBuffer.name, PacketBuffer.bytes, PacketBuffer.u8, List.nil_append,
        List.cons_append, List.length_cons, List.length_take, Packet.maxPayload]
      omega

theorem Packet.fits (p : Packet) : p.buffer.frame.Fits := by
  have hroom : p.maxPayload < 2 ^ 16 := by
    cases p <;> simp [Packet.maxPayload, recordsPerPacket, maxName]
  exact lt_of_le_of_lt p.payload_le hroom

/-! ### What the decoder makes of a packet -/

section Fields

theorem field_front {width value : ℕ} (h : value < 256 ^ width) (rest : List UInt8) :
    Decode.field (leBytes width value ++ rest) 0 width = value := by
  rw [Decode.field, List.drop_zero, List.take_left' (length_leBytes _ _), ofLe_leBytes_of_lt h]

theorem field_leBytes {width value : ℕ} (h : value < 256 ^ width) :
    Decode.field (leBytes width value) 0 width = value := by
  have hfront := field_front h []
  rwa [List.append_nil] at hfront

theorem unpackFrom_leBytes (width value : ℕ) (rest : List UInt8) :
    Decode.unpackFrom (leBytes width value ++ rest) 0 width = .ok (leBytes width value) := by
  rw [Decode.unpackFrom_ok (by simp), List.drop_zero, List.take_left' (length_leBytes _ _)]

theorem field_skip (k value : ℕ) (rest : List UInt8) (offset width : ℕ) :
    Decode.field (leBytes k value ++ rest) (k + offset) width = Decode.field rest offset width := by
  rw [Decode.field, ← List.drop_drop, List.drop_left' (length_leBytes _ _), Decode.field]

theorem field_byte (b : UInt8) (rest : List UInt8) : Decode.field (b :: rest) 0 1 = b.toNat := rfl

theorem field_skip_byte (b : UInt8) (rest : List UInt8) (offset width : ℕ) :
    Decode.field (b :: rest) (offset + 1) width = Decode.field rest offset width := rfl

theorem toNat_lt_16 (v : UInt16) : v.toNat < 256 ^ 2 := v.toNat_lt.trans_eq (by norm_num)

theorem toNat_lt_32 (v : UInt32) : v.toNat < 256 ^ 4 := v.toNat_lt.trans_eq (by norm_num)

theorem toNat_lt_64 (v : UInt64) : v.toNat < 256 ^ 8 := v.toNat_lt.trans_eq (by norm_num)

/-- **A record comes back.** -/
theorem record_bytes (on index : ℕ) (r : Record) : Decode.record on index r.bytes = r.decoded on index := by
  have htimestamp : Decode.field r.bytes 0 8 = r.timestamp.toNat := by
    rw [Record.bytes, field_front (toNat_lt_64 _)]
  have hobject : Decode.field r.bytes 8 8 = r.object.toNat := by
    rw [Record.bytes, field_skip 8 _ _ 0, field_front (toNat_lt_64 _)]
  have hthread : Decode.field r.bytes 16 4 = r.thread.toNat := by
    rw [Record.bytes, field_skip 8 _ _ 8, field_skip 8 _ _ 0, field_front (toNat_lt_32 _)]
  -- the four single bytes are behind the three integers
  have hlast (offset : ℕ) : Decode.field r.bytes (8 + (8 + (4 + offset))) 1 =
      Decode.field [r.what.code, r.core, r.priority, r.reserved] offset 1 := by
    rw [Record.bytes, field_skip, field_skip, field_skip]
  have hwhat : Decode.field r.bytes 20 1 = r.what.code.toNat := by
    rw [hlast 0, field_byte]
  have hcore : Decode.field r.bytes 21 1 = r.core.toNat := by
    rw [hlast 1, field_skip_byte _ _ 0, field_byte]
  have hpriority : Decode.field r.bytes 22 1 = r.priority.toNat := by
    rw [hlast 2, field_skip_byte _ _ 1, field_skip_byte _ _ 0, field_byte]
  unfold Decode.record Record.decoded
  rw [htimestamp, hobject, hthread, hwhat, hcore, hpriority, eventName_code]

/-- The bytes of the `i`-th record. -/
theorem take_drop_flatMap (rs : List Record) (i : ℕ) (hi : i < rs.length) :
    ((rs.flatMap Record.bytes).drop (24 * i)).take 24 = rs[i].bytes := by
  induction rs generalizing i with
  | nil => cases hi
  | cons r rs ih =>
      rw [List.flatMap_cons]
      cases i with
      | zero => rw [Nat.mul_zero, List.drop_zero, List.take_left' r.length_bytes, List.getElem_cons_zero]
      | succ i =>
          rw [Nat.mul_succ, Nat.add_comm, ← List.drop_drop, List.drop_left' r.length_bytes,
            List.getElem_cons_succ]
          exact ih i (Nat.lt_of_succ_lt_succ hi)

end Fields

section Contents

variable {τ : Type} (text : List UInt8 → τ)

/-- What a packet adds to the stream that is decoded. -/
def adds (S : Decode.Stream τ) : Packet → Decode.Stream τ
  | .header cores timestampHz => { S with
      version := 1
      cores := cores.toNat
      timestampHz := timestampHz.toNat }
  | .records core chunk => { S with
      records := S.records ++ chunk.val.mapIdx fun i r => r.decoded core.toNat (S.records.length + i) }
  | .dropped core total => { S with drops := S.drops ++ [⟨core.toNat, total.toNat, S.records.length⟩] }
  | .threadName thread name => { S with
      threadNames := Function.update S.threadNames thread.toNat (some (text (name.take maxName))) }
  | .objectName object name => { S with
      objectNames := Function.update S.objectNames object.toNat (some (text (name.take maxName))) }
  | .tagName tag name => { S with
      tagNames := Function.update S.tagNames tag.toNat (some (text (name.take maxName))) }

/-- What packets say together. -/
def contents (ps : List Packet) : Decode.Stream τ := ps.foldl (adds text) {}

/-- **The round trip of one packet.** -/
theorem packet_adds (S : Decode.Stream τ) (p : Packet) :
    S.packet text p.buffer.frame = .ok (adds text S p) := by
  cases p with
  | header cores timestampHz =>
      have hread : Decode.unpackFrom (Packet.header cores timestampHz).buffer.payload 4 12 =
          .ok (leBytes 2 1 ++ (leBytes 2 cores.toNat ++ leBytes 8 timestampHz.toNat)) := by
        rw [Decode.unpackFrom_ok (by simp [Packet.buffer, PacketBuffer.bytes, PacketBuffer.u16,
          PacketBuffer.u64, PacketBuffer.littleEndian])]
        rfl
      have hversion : Decode.field (leBytes 2 1 ++ (leBytes 2 cores.toNat ++ leBytes 8 timestampHz.toNat)) 0 2
          = 1 := field_front (by norm_num) _
      have hcores : Decode.field (leBytes 2 1 ++ (leBytes 2 cores.toNat ++ leBytes 8 timestampHz.toNat)) 2 2
          = cores.toNat := by
        rw [field_skip 2 _ _ 0, field_front (toNat_lt_16 _)]
      have hhz : Decode.field (leBytes 2 1 ++ (leBytes 2 cores.toNat ++ leBytes 8 timestampHz.toNat)) 4 8
          = timestampHz.toNat := by
        rw [field_skip 2 _ _ 2, field_skip 2 _ _ 0, field_leBytes (toNat_lt_64 _)]
      have hpacket := S.packet_header text hread hversion
      rw [hcores, hhz] at hpacket
      exact hpacket
  | records core chunk =>
      obtain ⟨rs, hrs⟩ := chunk
      have hframe : (Packet.records core ⟨rs, hrs⟩).buffer.frame = ⟨2, core :: rs.flatMap Record.bytes⟩ := by
        rw [PacketBuffer.frame, Packet.buffer, PacketBuffer.foldl_record]
        rfl
      have hrecords : ((List.range rs.length).map fun i => Decode.record core.toNat (S.records.length + i)
          (((rs.flatMap Record.bytes).drop (24 * i)).take 24)) =
          rs.mapIdx fun i r => r.decoded core.toNat (S.records.length + i) := by
        refine List.ext_getElem (by simp) fun i h₁ h₂ => ?_
        rw [List.length_map, List.length_range] at h₁
        rw [List.getElem_map, List.getElem_range, List.getElem_mapIdx, take_drop_flatMap rs i h₁, record_bytes]
      rw [hframe, S.packet_records text core (length_flatMap_bytes rs), hrecords]
      rfl
  | dropped core total =>
      have hread : Decode.unpackFrom (core :: leBytes 4 total.toNat) 0 5 =
          .ok (core :: leBytes 4 total.toNat) := rfl
      have htotal : Decode.field (core :: leBytes 4 total.toNat) 1 4 = total.toNat := by
        rw [field_skip_byte _ _ 0, field_leBytes (toNat_lt_32 _)]
      have hpacket := S.packet_dropped text hread
      rw [field_byte, htotal] at hpacket
      exact hpacket
  | threadName thread name =>
      have hpacket := S.packet_threadName text (unpackFrom_leBytes 4 thread.toNat (name.take maxName))
      rw [field_leBytes (toNat_lt_32 _), List.drop_left' (length_leBytes _ _)] at hpacket
      exact hpacket
  | objectName object name =>
      have hpacket := S.packet_objectName text (unpackFrom_leBytes 8 object.toNat (name.take maxName))
      rw [field_leBytes (toNat_lt_64 _), List.drop_left' (length_leBytes _ _)] at hpacket
      exact hpacket
  | tagName tag name => rfl

/-- Packets behind a header are all taken. -/
theorem foldlM_packets (ps : List Packet) (S : Decode.Stream τ) :
    (ps.map fun p => p.buffer.frame).foldlM (Decode.accept text) ⟨false, S⟩ =
      .ok ⟨false, ps.foldl (adds text) S⟩ := by
  induction ps generalizing S with
  | nil => rfl
  | cons p ps ih =>
      have haccept : Decode.accept text ⟨false, S⟩ p.buffer.frame = .ok ⟨false, adds text S p⟩ := by
        rw [Decode.accept, if_neg (by simp [Decode.Decoding.NoHeader]), packet_adds]
        rfl
      rw [List.map_cons, List.foldlM_cons, haccept]
      exact ih _

theorem accept_header (cores : UInt16) (timestampHz : UInt64) :
    Decode.accept text Decode.start (Packet.header cores timestampHz).buffer.frame =
      .ok ⟨false, adds text {} (.header cores timestampHz)⟩ := by
  have hheader : ¬ (Decode.start : Decode.Decoding τ).NoHeader
      (Packet.header cores timestampHz).buffer.frame := by
    rintro ⟨-, htag | hmagic⟩
    · exact htag rfl
    · exact hmagic rfl
  rw [Decode.accept, if_neg hheader]
  have hadds := packet_adds text {} (.header cores timestampHz)
  show (Decode.Stream.packet text {} _).map _ = _
  rw [hadds]
  rfl

theorem truncated_adds (S : Decode.Stream τ) (p : Packet) : (adds text S p).truncated = S.truncated := by
  cases p <;> rfl

theorem truncated_foldl_adds (ps : List Packet) (S : Decode.Stream τ) :
    (ps.foldl (adds text) S).truncated = S.truncated := by
  induction ps generalizing S with
  | nil => rfl
  | cons p ps ih => rw [List.foldl_cons, ih, truncated_adds]

/-- **Packets, and part of one**: the decoder gives what the whole ones say. -/
theorem decode_packets {cores : UInt16} {timestampHz : UInt64} {ps : List Packet} {data : List UInt8} {cut : Bool}
    (hsplit : split data =
      ((Packet.header cores timestampHz :: ps).map fun p => p.buffer.frame, cut)) :
    Decode.decode text data = .ok { contents text (.header cores timestampHz :: ps) with truncated := cut } := by
  rw [Decode.decode_eq, hsplit, List.map_cons, List.foldlM_cons, accept_header]
  have hrest := foldlM_packets text ps (adds text {} (.header cores timestampHz))
  simp only [bind, Except.bind, hrest, Except.map, Decode.Decoding.ends]
  have htruncated := truncated_foldl_adds text ps (adds text {} (.header cores timestampHz))
  rw [truncated_adds] at htruncated
  cases cut with
  | true => rfl
  | false =>
      show Except.ok _ = Except.ok _
      rw [contents, List.foldl_cons]
      congr 1
      generalize ps.foldl (adds text) (adds text {} (.header cores timestampHz)) = S at htruncated ⊢
      cases S
      cases htruncated
      rfl

theorem contents_append (ps : List Packet) (p : Packet) :
    contents text (ps ++ [p]) = adds text (contents text ps) p := by
  rw [contents, List.foldl_append]
  rfl

end Contents

/-! ### The writer -/

/-- What one drain of a core finds: what its reads give, one after another, and nothing when they are through, and
the count of the dropped records. -/
structure Visit where
  reads : List Chunk
  dropped : UInt32

structure Writer where
  /-- `reported_dropped`. -/
  reported : ℕ → UInt32
  /-- The packets the sink was given. -/
  sink : List Packet
  taken : List (ℕ × Record)
  losses : List Decode.Drop

inductive Call where
  | nameThread (thread : UInt32) (name : List UInt8)
  | nameObject (object : UInt64) (name : List UInt8)
  | nameTag (tag : UInt8) (name : List UInt8)
  | drain (core : ℕ) (visit : Visit)
  /-- `drain` of every core, in core order. -/
  | drainAll (visits : ℕ → Visit)

namespace Writer

def emit (W : Writer) (p : Packet) : Writer := { W with sink := W.sink ++ [p] }

def new (cores : ℕ) (timestampHz : UInt64) : Writer :=
  ⟨fun _ => 0, [.header (UInt16.ofNat cores) timestampHz], [], []⟩

/-- The loop of `drain`, with `written` records written. -/
def drainLoop (size core : ℕ) : List Chunk → ℕ → Writer → Writer
  | [], _, W => W
  | chunk :: rest, written, W =>
      if written < max size 1 then
        let W := { W with taken := W.taken ++ chunk.val.map fun r => (core, r) }
        if chunk.val.length = 0 then W
        else
          let W := W.emit (.records (UInt8.ofNat core) chunk)
          if chunk.val.length < recordsPerPacket then W
          else drainLoop size core rest (written + chunk.val.length) W
      else W

def drainCore (size core : ℕ) (visit : Visit) (W : Writer) : Writer :=
  let W := drainLoop size core visit.reads 0 W
  if visit.dropped ≠ W.reported core then
    { W.emit (.dropped (UInt8.ofNat core) visit.dropped) with
      reported := Function.update W.reported core visit.dropped
      losses := W.losses ++ [⟨core, visit.dropped.toNat, W.taken.length⟩] }
  else W

def next (size cores : ℕ) (W : Writer) : Call → Option Writer
  | .nameThread thread name => some (W.emit (.threadName thread name))
  | .nameObject object name => some (W.emit (.objectName object name))
  | .nameTag tag name => some (W.emit (.tagName tag name))
  | .drain core visit => if core < cores then some (W.drainCore size core visit) else none
  | .drainAll visits => some ((List.range cores).foldl (fun W core => W.drainCore size core (visits core)) W)

/-- What the sink was given, packet by packet. -/
def packets (W : Writer) : List (List UInt8) := W.sink.map Packet.bytes

end Writer

/-! ### What the stream is to say -/

namespace Call

/-- The name a call gives to the thread `k`. -/
def threadNamed (k : ℕ) : Call → Option (List UInt8)
  | .nameThread thread name => if thread.toNat = k then some name else none
  | _ => none

def objectNamed (k : ℕ) : Call → Option (List UInt8)
  | .nameObject object name => if object.toNat = k then some name else none
  | _ => none

def tagNamed (k : ℕ) : Call → Option (List UInt8)
  | .nameTag tag name => if tag.toNat = k then some name else none
  | _ => none

end Call

/-- The last name that the calls give. -/
def lastName (named : Call → Option (List UInt8)) (calls : List Call) : Option (List UInt8) :=
  calls.foldl (fun last call => (named call).or last) none

theorem lastName_append (named : Call → Option (List UInt8)) (calls : List Call) (call : Call) :
    lastName named (calls ++ [call]) = (named call).or (lastName named calls) := by
  rw [lastName, List.foldl_append]
  rfl

section RoundTrip

variable {τ : Type} (text : List UInt8 → τ)

/-- **What the stream is to say**: the header's values, every record taken, the losses reported, and the last name
given to each id, cut. -/
def Writer.saying (cores : ℕ) (timestampHz : UInt64) (calls : List Call) (W : Writer) : Decode.Stream τ where
  version := 1
  cores := cores
  timestampHz := timestampHz.toNat
  records := W.taken.mapIdx fun i x => x.2.decoded x.1 i
  drops := W.losses
  threadNames := fun k => (lastName (Call.threadNamed k) calls).map fun name => text (name.take maxName)
  objectNames := fun k => (lastName (Call.objectNamed k) calls).map fun name => text (name.take maxName)
  tagNames := fun k => (lastName (Call.tagNamed k) calls).map fun name => text (name.take maxName)

variable {cores size : ℕ} {timestampHz : UInt64} {calls : List Call} {W W' : Writer} {text}

/-- The packets say what they are to say. -/
def Writer.Right (text : List UInt8 → τ) (cores : ℕ) (timestampHz : UInt64) (calls : List Call) (W : Writer) :
    Prop :=
  contents text W.sink = W.saying text cores timestampHz calls

/-- A packet names its core in one byte. -/
theorem toNat_core {core : ℕ} (hcore : core < 256) : (UInt8.ofNat core).toNat = core := by
  rw [UInt8.toNat_ofNat']
  exact Nat.mod_eq_of_lt hcore

theorem Writer.Right.records (h : W.Right text cores timestampHz calls) {core : ℕ} (hcore : core < 256)
    (chunk : Chunk) :
    ({ W with taken := W.taken ++ chunk.val.map fun r => (core, r) }.emit
      (.records (UInt8.ofNat core) chunk)).Right text cores timestampHz calls := by
  have hbyte := toNat_core hcore
  unfold Writer.Right at h ⊢
  show contents text (W.sink ++ [_]) = _
  rw [contents_append, h]
  simp only [adds, Writer.saying, Writer.emit, hbyte, List.mapIdx_append, List.length_mapIdx]
  congr 2
  refine List.ext_getElem (by simp) fun i h₁ h₂ => ?_
  simp [Nat.add_comm]

theorem Writer.Right.drainLoop (h : W.Right text cores timestampHz calls) (size : ℕ) {core : ℕ} (hcore : core < 256)
    (reads : List Chunk) (written : ℕ) :
    (Writer.drainLoop size core reads written W).Right text cores timestampHz calls := by
  induction reads generalizing written W with
  | nil => exact h
  | cons chunk rest ih =>
      have hread := h.records hcore chunk
      unfold Writer.drainLoop
      split
      · dsimp only
        split
        · next hnone =>
          -- a read that gives nothing writes nothing
          have hnil : chunk.val = [] := List.length_eq_zero_iff.1 hnone
          rw [hnil, List.map_nil, List.append_nil]
          exact h
        · split
          · exact hread
          · exact ih hread _
      · exact h

theorem Writer.Right.drainCore (h : W.Right text cores timestampHz calls) {core : ℕ} (hcore : core < 256)
    (visit : Visit) : (W.drainCore size core visit).Right text cores timestampHz calls := by
  have hloop := h.drainLoop size hcore visit.reads 0
  have hbyte := toNat_core hcore
  unfold Writer.drainCore
  generalize Writer.drainLoop size core visit.reads 0 W = W₁ at hloop ⊢
  dsimp only
  split
  · unfold Writer.Right at hloop ⊢
    show contents text (W₁.sink ++ [_]) = _
    rw [contents_append, hloop]
    simp only [adds, Writer.saying, Writer.emit, hbyte, List.length_mapIdx]
  · exact hloop

/-- A call that gives no name. -/
theorem Writer.Right.unnamed (h : W.Right text cores timestampHz calls) {call : Call}
    (hthread : ∀ k, call.threadNamed k = none) (hobject : ∀ k, call.objectNamed k = none)
    (htag : ∀ k, call.tagNamed k = none) : W.Right text cores timestampHz (calls ++ [call]) := by
  unfold Writer.Right at h ⊢
  rw [h]
  simp only [Writer.saying, lastName_append, hthread, hobject, htag, Option.none_or]

/-- A table with one name more. -/
theorem update_lastName {k : ℕ} {name : List UInt8} (named : ℕ → Call → Option (List UInt8)) (call : Call)
    (hcall : ∀ k', named k' call = if k = k' then some name else none) :
    Function.update (fun k' => (lastName (named k') calls).map fun name => text (name.take maxName)) k
        (some (text (name.take maxName))) =
      fun k' => (lastName (named k') (calls ++ [call])).map fun name => text (name.take maxName) := by
  funext k'
  rw [lastName_append, hcall]
  by_cases hk : k = k'
  · subst hk
    simp
  · rw [Function.update_of_ne (Ne.symm hk), if_neg hk, Option.none_or]

/-- **One call**: the packets still say what they are to say. -/
theorem Writer.Right.next (hcores : cores ≤ 255) (h : W.Right text cores timestampHz calls) {call : Call}
    (hnext : W.next size cores call = some W') : W'.Right text cores timestampHz (calls ++ [call]) := by
  cases call with
  | nameThread thread name =>
      cases hnext
      unfold Writer.Right at h ⊢
      show contents text (W.sink ++ [_]) = _
      rw [contents_append, h]
      simp only [adds, Writer.saying, Writer.emit]
      rw [update_lastName Call.threadNamed (.nameThread thread name) fun _ => rfl]
      simp only [lastName_append, Call.objectNamed, Call.tagNamed, Option.none_or]
  | nameObject object name =>
      cases hnext
      unfold Writer.Right at h ⊢
      show contents text (W.sink ++ [_]) = _
      rw [contents_append, h]
      simp only [adds, Writer.saying, Writer.emit]
      rw [update_lastName Call.objectNamed (.nameObject object name) fun _ => rfl]
      simp only [lastName_append, Call.threadNamed, Call.tagNamed, Option.none_or]
  | nameTag tag name =>
      cases hnext
      unfold Writer.Right at h ⊢
      show contents text (W.sink ++ [_]) = _
      rw [contents_append, h]
      simp only [adds, Writer.saying, Writer.emit]
      rw [update_lastName Call.tagNamed (.nameTag tag name) fun _ => rfl]
      simp only [lastName_append, Call.threadNamed, Call.objectNamed, Option.none_or]
  | drain core visit =>
      simp only [Writer.next] at hnext
      split at hnext
      · next hcore =>
        cases hnext
        exact (h.drainCore (by omega) visit).unnamed (fun _ => rfl) (fun _ => rfl) fun _ => rfl
      · cases hnext
  | drainAll visits =>
      cases hnext
      have hall : ∀ cs : List ℕ, (∀ core ∈ cs, core < 256) → ∀ W : Writer,
          W.Right text cores timestampHz calls →
          (cs.foldl (fun W core => W.drainCore size core (visits core)) W).Right text cores timestampHz
            calls := by
        intro cs
        induction cs with
        | nil => exact fun _ _ hW => hW
        | cons core cs ih =>
            intro hcs W hW
            have hcore := hcs core (List.mem_cons_self ..)
            exact ih (fun c hc => hcs c (List.mem_cons_of_mem _ hc)) _ (hW.drainCore hcore _)
      have hrange : ∀ core ∈ List.range cores, core < 256 := by
        intro core hcore
        have hlt := List.mem_range.1 hcore
        omega
      exact (hall _ hrange W h).unnamed (fun _ => rfl) (fun _ => rfl) fun _ => rfl

/-- Packets are only added. -/
theorem Writer.sink_drainCore (size core : ℕ) (visit : Visit) (W : Writer) :
    W.sink <+: (W.drainCore size core visit).sink := by
  have hloop (reads : List Chunk) (written : ℕ) (W : Writer) :
      W.sink <+: (Writer.drainLoop size core reads written W).sink := by
    induction reads generalizing written W with
    | nil => exact List.prefix_rfl
    | cons chunk rest ih =>
        unfold Writer.drainLoop
        split
        · dsimp only
          split
          · exact List.prefix_rfl
          · split
            · exact List.prefix_append _ _
            · refine List.IsPrefix.trans ?_ (ih _ _)
              exact List.prefix_append _ _
        · exact List.prefix_rfl
  unfold Writer.drainCore
  dsimp only
  split
  · exact (hloop _ _ _).trans (List.prefix_append _ _)
  · exact hloop _ _ _

theorem Writer.sink_next {call : Call} (h : W.next size cores call = some W') : W.sink <+: W'.sink := by
  cases call with
  | nameThread thread name =>
      cases h
      exact List.prefix_append _ _
  | nameObject object name =>
      cases h
      exact List.prefix_append _ _
  | nameTag tag name =>
      cases h
      exact List.prefix_append _ _
  | drain core visit =>
      simp only [Writer.next] at h
      split at h
      · cases h
        exact W.sink_drainCore ..
      · cases h
  | drainAll visits =>
      cases h
      generalize List.range cores = cs
      induction cs generalizing W with
      | nil => exact List.prefix_rfl
      | cons core cs ih => exact (W.sink_drainCore ..).trans ih

/-- The packets of a run begin with the header and say what they are to say. -/
theorem Writer.right_of_run (text : List UInt8 → τ) (hcores : cores ≤ 255)
    (hrun : run (Writer.next size cores) (Writer.new cores timestampHz) calls = some W) :
    W.Right text cores timestampHz calls ∧ [Packet.header (UInt16.ofNat cores) timestampHz] <+: W.sink := by
  induction calls using List.reverseRecOn generalizing W with
  | nil =>
      cases hrun
      have hbyte : (UInt16.ofNat cores).toNat = cores := by
        rw [UInt16.toNat_ofNat']
        exact Nat.mod_eq_of_lt (by omega)
      refine ⟨?_, List.prefix_rfl⟩
      show adds text {} (Packet.header (UInt16.ofNat cores) timestampHz) = _
      simp only [adds, Writer.saying, hbyte]
      rfl
  | append_singleton calls call ih =>
      rw [run_append] at hrun
      obtain ⟨W₀, hW₀, hlast⟩ := Option.bind_eq_some_iff.1 hrun
      obtain ⟨hright, hheader⟩ := ih hW₀
      rw [run_cons] at hlast
      obtain ⟨W₁, hnext, hend⟩ := Option.bind_eq_some_iff.1 hlast
      cases hend
      exact ⟨hright.next hcores hnext, hheader.trans (Writer.sink_next hnext)⟩

theorem flatten_packets (ps : List Packet) :
    (ps.map Packet.bytes).flatten = (ps.map fun p => p.buffer.frame).flatMap Frame.bytes := by
  rw [List.flatMap_map, List.flatMap_def]
  congr 1
  exact List.map_congr_left fun p _ => p.buffer.finish_eq

theorem fits_packets (ps : List Packet) : ∀ f ∈ ps.map fun p => p.buffer.frame, f.Fits := by
  intro f hf
  obtain ⟨p, -, rfl⟩ := List.mem_map.1 hf
  exact p.fits

/-- **The stream comes back.**  For every run of names and drains on up to 255 cores, decoding the packets laid end
to end gives what the stream is to say.  Cut anywhere behind the header it gives what the packets before the cut say,
and reports truncation exactly if the cut is inside a packet. -/
theorem stream_round_trip (text : List UInt8 → τ) (hcores : cores ≤ 255)
    (hrun : run (Writer.next size cores) (Writer.new cores timestampHz) calls = some W) :
    Decode.decode text W.packets.flatten = .ok (W.saying text cores timestampHz calls) ∧
      ∀ front, front <+: W.packets.flatten → front ≠ W.packets.flatten →
        (Packet.header (UInt16.ofNat cores) timestampHz).bytes <+: front →
        ∃ n part packet, W.packets[n]? = some packet ∧ front = (W.packets.take n).flatten ++ part ∧
          part <+: packet ∧ part ≠ packet ∧
          Decode.decode text front = .ok { contents text (W.sink.take n) with truncated := decide (part ≠ []) } := by
  obtain ⟨hright, ps, hsink⟩ := Writer.right_of_run text hcores hrun
  have hsink' : W.sink = .header (UInt16.ofNat cores) timestampHz :: ps := hsink.symm
  refine ⟨?_, fun front hfront hne hheader => ?_⟩
  · have hsplit : split W.packets.flatten =
        ((Packet.header (UInt16.ofNat cores) timestampHz :: ps).map fun p => p.buffer.frame, false) := by
      have hwhole := split_append (fits_packets W.sink) []
      rw [List.append_nil, ← flatten_packets, split_nil, List.append_nil, hsink'] at hwhole
      rw [Writer.packets, hsink']
      exact hwhole
    rw [decode_packets text hsplit, ← hsink', hright]
    rfl
  · obtain ⟨n, part, packet, hpacket, hcut, hpart, hneq⟩ := prefix_flatten hfront hne
    refine ⟨n, part, packet, hpacket, hcut, hpart, hneq, ?_⟩
    rw [Writer.packets, List.getElem?_map] at hpacket
    obtain ⟨p, hp, rfl⟩ := Option.map_eq_some_iff.1 hpacket
    -- the header is whole, so the cut is not inside it
    have hpos : n ≠ 0 := by
      rintro rfl
      rw [hsink'] at hp
      cases hp
      rw [List.take_zero, List.flatten_nil, List.nil_append] at hcut
      rw [hcut] at hheader
      exact hneq (hpart.eq_of_length (le_antisymm hpart.length_le hheader.length_le))
    obtain ⟨m, rfl⟩ := Nat.exists_eq_succ_of_ne_zero hpos
    have htake : W.sink.take (m + 1) = .header (UInt16.ofNat cores) timestampHz :: ps.take m := by
      rw [hsink', List.take_succ_cons]
    have hsplit : split front =
        ((Packet.header (UInt16.ofNat cores) timestampHz :: ps.take m).map fun p => p.buffer.frame,
          decide (part ≠ [])) := by
      rw [Packet.bytes, PacketBuffer.finish_eq] at hpart hneq
      have hwhole := split_cut (fits_packets (W.sink.take (m + 1))) p.fits hpart hneq
      rw [← flatten_packets, List.map_take, htake] at hwhole
      rw [hcut]
      exact hwhole
    rw [decode_packets text hsplit, htake]

/-- A name, a drain that finds a record and a loss, and another name for the same tag. -/
def namesAndDrain : List Call :=
  [.nameTag 7 [97], .drain 0 ⟨[⟨[⟨5, 6, 1, .user, 0, 7, 0⟩], by decide⟩], 2⟩, .nameTag 7 [98, 99]]

theorem stream_round_trip_namesAndDrain :
    ∃ W, run (Writer.next 4 1) (Writer.new 1 1000) namesAndDrain = some W ∧
      Decode.decode id W.packets.flatten = .ok (W.saying id 1 1000 namesAndDrain) ∧
      (W.saying id 1 1000 namesAndDrain).tagNames 7 = some [98, 99] ∧
      (W.saying id 1 1000 namesAndDrain).drops = [⟨0, 2, 1⟩] := by
  have heval : (run (Writer.next 4 1) (Writer.new 1 1000) namesAndDrain).map (fun W => W.losses) =
      some [⟨0, 2, 1⟩] := rfl
  obtain ⟨W, hW, hlosses⟩ := Option.map_eq_some_iff.1 heval
  exact ⟨W, hW, (stream_round_trip id (by decide) hW).1, rfl, hlosses⟩

end RoundTrip

end Cyros.Trace
