import Mathlib.Algebra.Ring.Nat
import Mathlib.Data.List.Basic
import Mathlib.Data.List.Infix
import Mathlib.Tactic.Common

/-!
# Tagged frames

A byte string made of frames, each a tag, the length of a payload in two bytes, the low one first, and the payload.

* `leBytes` and `ofLe`: an integer as bytes, the low one first, and back.
* `takeFrame`: the frame a byte string begins with, `none` when it ends before that frame does.
* `split`: all the frames a byte string begins with, and whether something is left over.

`split_append` and `split_cut` say what `split` gives on frames laid end to end and on a string that is cut inside
one; `split_sound` that what it gives is what is there.  `prefix_flatten` says where a cut can be.
-/

namespace Cyros.Lib

/-! ### Integers as bytes -/

/-- The `width` low bytes of a value, the lowest first. -/
def leBytes (width value : ℕ) : List UInt8 :=
  (List.range width).map fun i => UInt8.ofNat ((value >>> (8 * i)) &&& 0xFF)

def ofLe : List UInt8 → ℕ
  | [] => 0
  | b :: rest => b.toNat + 256 * ofLe rest

@[simp] theorem length_leBytes (width value : ℕ) : (leBytes width value).length = width := by
  simp [leBytes]

theorem leBytes_succ (width value : ℕ) :
    leBytes (width + 1) value = UInt8.ofNat (value % 256) :: leBytes width (value / 256) := by
  have hlow (v : ℕ) : v &&& 0xFF = v % 256 := Nat.and_two_pow_sub_one_eq_mod v 8
  unfold leBytes
  rw [List.range_succ_eq_map, List.map_cons, List.map_map]
  congr 1
  · rw [hlow]
    rfl
  · refine List.map_congr_left fun i _ => ?_
    have hshift : value >>> (8 * (i + 1)) = (value / 256) >>> (8 * i) := by
      rw [Nat.mul_succ, Nat.add_comm, Nat.shiftRight_add, Nat.shiftRight_eq_div_pow value 8]
    show UInt8.ofNat (value >>> (8 * (i + 1)) &&& 0xFF) = _
    rw [hshift]

theorem ofLe_leBytes (width value : ℕ) : ofLe (leBytes width value) = value % 256 ^ width := by
  induction width generalizing value with
  | zero => simp [leBytes, ofLe, Nat.mod_one]
  | succ width ih =>
      have hbyte : (UInt8.ofNat (value % 256)).toNat = value % 256 := by
        rw [UInt8.toNat_ofNat']
        exact Nat.mod_mod _ _
      rw [leBytes_succ, ofLe, ih, hbyte, pow_succ', Nat.mod_mul]

/-- A value that fits comes back. -/
theorem ofLe_leBytes_of_lt {width value : ℕ} (h : value < 256 ^ width) :
    ofLe (leBytes width value) = value := by
  rw [ofLe_leBytes, Nat.mod_eq_of_lt h]

theorem ofLe_lt (bytes : List UInt8) : ofLe bytes < 256 ^ bytes.length := by
  induction bytes with
  | nil => exact Nat.one_pos
  | cons b rest ih =>
      have hb : b.toNat < 256 := b.toNat_lt
      rw [ofLe, List.length_cons, pow_succ']
      omega

theorem leBytes_ofLe (bytes : List UInt8) : leBytes bytes.length (ofLe bytes) = bytes := by
  induction bytes with
  | nil => rfl
  | cons b rest ih =>
      have hb : b.toNat < 256 := b.toNat_lt
      have hmod : (b.toNat + 256 * ofLe rest) % 256 = b.toNat := by omega
      have hdiv : (b.toNat + 256 * ofLe rest) / 256 = ofLe rest := by omega
      rw [List.length_cons, leBytes_succ, ofLe, hmod, hdiv, ih, UInt8.ofNat_toNat]

/-! ### Frames -/

structure Frame where
  tag : UInt8
  payload : List UInt8
  deriving DecidableEq

namespace Frame

def bytes (f : Frame) : List UInt8 := f.tag :: (leBytes 2 f.payload.length ++ f.payload)

/-- The length fits its two bytes. -/
def Fits (f : Frame) : Prop := f.payload.length < 2 ^ 16

theorem bytes_eq (f : Frame) :
    ∃ lo hi, f.bytes = f.tag :: lo :: hi :: f.payload ∧ leBytes 2 f.payload.length = [lo, hi] :=
  ⟨_, _, rfl, rfl⟩

theorem bytes_ne_nil (f : Frame) : f.bytes ≠ [] := List.cons_ne_nil _ _

end Frame

/-- The frame a byte string begins with, and what follows it. -/
def takeFrame : List UInt8 → Option (Frame × List UInt8)
  | tag :: lo :: hi :: rest =>
      if rest.length < ofLe [lo, hi] then none
      else some (⟨tag, rest.take (ofLe [lo, hi])⟩, rest.drop (ofLe [lo, hi]))
  | _ => none

/-- The frames found in `fuel` steps, and whether bytes are left that are not a whole frame. -/
def splitFuel : ℕ → List UInt8 → List Frame × Bool
  | _, [] => ([], false)
  | 0, _ :: _ => ([], true)
  | fuel + 1, b :: bs => match takeFrame (b :: bs) with
    | none => ([], true)
    | some (f, rest) => (f :: (splitFuel fuel rest).1, (splitFuel fuel rest).2)

def split (data : List UInt8) : List Frame × Bool := splitFuel data.length data

theorem takeFrame_append {f : Frame} (hf : f.Fits) (rest : List UInt8) :
    takeFrame (f.bytes ++ rest) = some (f, rest) := by
  obtain ⟨lo, hi, hbytes, hlength⟩ := f.bytes_eq
  have hread : ofLe [lo, hi] = f.payload.length := by
    rw [← hlength]
    exact ofLe_leBytes_of_lt hf
  rw [hbytes]
  simp only [List.cons_append, takeFrame, hread, List.length_append]
  rw [if_neg (by omega), List.take_left, List.drop_left]

theorem takeFrame_sound {data rest : List UInt8} {f : Frame} (h : takeFrame data = some (f, rest)) :
    data = f.bytes ++ rest ∧ f.Fits := by
  unfold takeFrame at h
  split at h
  · next tag lo hi tail =>
    split at h
    · cases h
    · next hlong =>
      cases h
      have hlength : (tail.take (ofLe [lo, hi])).length = ofLe [lo, hi] := by
        rw [List.length_take]
        omega
      have hback : leBytes 2 (ofLe [lo, hi]) = [lo, hi] := leBytes_ofLe [lo, hi]
      have hsmall : ofLe [lo, hi] < 256 ^ 2 := ofLe_lt [lo, hi]
      refine ⟨?_, ?_⟩
      · simp [Frame.bytes, hlength, hback]
      · rw [Frame.Fits, hlength]
        omega
  · cases h

/-- A string cut inside a frame has no frame in front. -/
theorem takeFrame_cut {f : Frame} (hf : f.Fits) {part : List UInt8} (hpart : part <+: f.bytes)
    (hne : part ≠ f.bytes) : takeFrame part = none := by
  cases h : takeFrame part with
  | none => rfl
  | some x =>
      -- otherwise that frame is the whole of `f`
      obtain ⟨g, rest⟩ := x
      obtain ⟨tail, htail⟩ := hpart
      obtain ⟨hpart', hg⟩ := takeFrame_sound h
      have hfront := takeFrame_append hf []
      rw [List.append_nil, ← htail, hpart', List.append_assoc, takeFrame_append hg] at hfront
      simp only [Option.some.injEq, Prod.mk.injEq, List.append_eq_nil_iff] at hfront
      rw [hpart', hfront.1, hfront.2.1, List.append_nil] at hne
      exact absurd rfl hne

/-- Enough steps find all there is. -/
theorem splitFuel_eq {fuel : ℕ} {data : List UInt8} (h : data.length ≤ fuel) :
    splitFuel fuel data = split data := by
  unfold split
  induction hn : data.length using Nat.strongRecOn generalizing fuel data with
  | _ n ih =>
    subst hn
    cases data with
    | nil => simp [splitFuel]
    | cons b bs =>
      obtain ⟨fuel, rfl⟩ : ∃ k, fuel = k + 1 := Nat.exists_eq_succ_of_ne_zero (by
        rw [List.length_cons] at h
        omega)
      rw [List.length_cons, splitFuel, splitFuel]
      cases htake : takeFrame (b :: bs) with
      | none => rfl
      | some x =>
          obtain ⟨f, rest⟩ := x
          have hlength : rest.length < (b :: bs).length := by
            have hpos := List.length_pos_iff.2 f.bytes_ne_nil
            rw [(takeFrame_sound htake).1, List.length_append]
            omega
          rw [List.length_cons] at h hlength
          have hrest (k : ℕ) (hk : rest.length ≤ k) : splitFuel k rest = splitFuel rest.length rest :=
            ih rest.length (by rw [List.length_cons]; omega) hk rfl
          simp only [hrest fuel (by omega), hrest bs.length (by omega)]

@[simp] theorem split_nil : split [] = ([], false) := rfl

theorem split_of_none {data : List UInt8} (hne : data ≠ []) (h : takeFrame data = none) :
    split data = ([], true) := by
  obtain ⟨b, bs, rfl⟩ := List.exists_cons_of_ne_nil hne
  rw [split, List.length_cons, splitFuel, h]

theorem split_of_some {data rest : List UInt8} {f : Frame} (h : takeFrame data = some (f, rest)) :
    split data = (f :: (split rest).1, (split rest).2) := by
  obtain ⟨hdata, -⟩ := takeFrame_sound h
  have hne : data ≠ [] := by
    rw [hdata]
    exact List.append_ne_nil_of_left_ne_nil f.bytes_ne_nil _
  obtain ⟨b, bs, rfl⟩ := List.exists_cons_of_ne_nil hne
  have hlength : rest.length ≤ bs.length := by
    have htotal := congrArg List.length hdata
    have hpos := List.length_pos_iff.2 f.bytes_ne_nil
    rw [List.length_append, List.length_cons] at htotal
    omega
  rw [split, List.length_cons, splitFuel, h]
  simp only [splitFuel_eq hlength]

/-- Frames laid end to end. -/
theorem split_append {fs : List Frame} (hfs : ∀ f ∈ fs, f.Fits) (rest : List UInt8) :
    split (fs.flatMap Frame.bytes ++ rest) = (fs ++ (split rest).1, (split rest).2) := by
  induction fs with
  | nil => rfl
  | cons f fs ih =>
      have htake := takeFrame_append (hfs f (List.mem_cons_self ..)) (fs.flatMap Frame.bytes ++ rest)
      rw [List.flatMap_cons, List.append_assoc, split_of_some htake,
        ih fun g hg => hfs g (List.mem_cons_of_mem _ hg)]
      rfl

/-- **A cut inside a frame**: the whole frames before it, and something left over unless it is between two. -/
theorem split_cut {fs : List Frame} (hfs : ∀ f ∈ fs, f.Fits) {f : Frame} (hf : f.Fits) {part : List UInt8}
    (hpart : part <+: f.bytes) (hne : part ≠ f.bytes) :
    split (fs.flatMap Frame.bytes ++ part) = (fs, decide (part ≠ [])) := by
  rw [split_append hfs]
  cases part with
  | nil => simp
  | cons b bs =>
      rw [split_of_none (List.cons_ne_nil _ _) (takeFrame_cut hf hpart hne)]
      simp

/-- **What is found is there**, from the front on. -/
theorem split_sound (data : List UInt8) :
    ∃ tail, data = (split data).1.flatMap Frame.bytes ++ tail ∧ ∀ f ∈ (split data).1, f.Fits := by
  induction hn : data.length using Nat.strongRecOn generalizing data with
  | _ n ih =>
    subst hn
    cases h : takeFrame data with
    | none =>
        refine ⟨data, ?_⟩
        rcases List.eq_nil_or_concat data with hnil | hcons
        · subst hnil
          simp
        · have hne : data ≠ [] := by
            obtain ⟨l, b, hl⟩ := hcons
            rw [hl, List.concat_eq_append]
            exact List.append_ne_nil_of_right_ne_nil _ (List.cons_ne_nil _ _)
          rw [split_of_none hne h]
          simp
    | some x =>
        obtain ⟨f, rest⟩ := x
        obtain ⟨hdata, hf⟩ := takeFrame_sound h
        have hlength : rest.length < data.length := by
          have hpos := List.length_pos_iff.2 f.bytes_ne_nil
          rw [hdata, List.length_append]
          omega
        obtain ⟨tail, htail, hfits⟩ := ih rest.length hlength rest rfl
        refine ⟨tail, ?_, ?_⟩
        · rw [split_of_some h, List.flatMap_cons, List.append_assoc, ← htail]
          exact hdata
        · rw [split_of_some h]
          exact List.forall_mem_cons.2 ⟨hf, hfits⟩

/-- **Where a cut can be**: a string that lacks the end of a concatenation ends inside one of its parts. -/
theorem prefix_flatten {α : Type*} {parts : List (List α)} {front : List α} (h : front <+: parts.flatten)
    (hne : front ≠ parts.flatten) :
    ∃ n part whole, parts[n]? = some whole ∧ front = (parts.take n).flatten ++ part ∧ part <+: whole ∧
      part ≠ whole := by
  induction parts generalizing front with
  | nil => exact absurd (List.prefix_nil.1 h) hne
  | cons p parts ih =>
      rw [List.flatten_cons] at h hne
      by_cases hp : p <+: front
      · obtain ⟨front', rfl⟩ := hp
        obtain ⟨n, part, whole, hwhole, hfront, hpart⟩ :=
          ih (List.prefix_append_right_inj p |>.1 h) fun heq => hne (by rw [heq])
        refine ⟨n + 1, part, whole, hwhole, ?_, hpart⟩
        rw [List.take_succ_cons, List.flatten_cons, List.append_assoc, hfront]
      · have hpart : front <+: p := by
          rcases List.prefix_or_prefix_of_prefix h (List.prefix_append p _) with hle | hle
          · exact hle
          · exact absurd hle hp
        refine ⟨0, front, p, rfl, rfl, hpart, fun heq => hp ?_⟩
        rw [heq]

end Cyros.Lib
