import Libubox.Lib.Bytes

/-!
# Attributes in memory

A `struct blob_attr *` is modelled by the memory from that address on, so a
pointer moves by dropping bytes and a read outside the object is a read off
the end of the list.  Every accessor returns `none` exactly when it makes such
a read; nothing else in this file can fail.

The 32-bit word `id_len` at the front of an attribute holds, from the top, the
extended flag, seven bits of id and 24 bits of length.  The length counts the
word itself but not the padding to the next multiple of four.
-/

namespace Libubox.Blob

open Bytes

/-- Memory from an address on. -/
abbrev Mem := List UInt8

/-- The word `attr->id_len` after `be32_to_cpu`. -/
def idLen (attr : Mem) : Option Nat :=
  if 4 ≤ attr.length then some (beNat (attr.take 4)) else none

/-- `blob_data`: the payload follows the header word. -/
def blobData (attr : Mem) : Mem := attr.drop 4

/-- `blob_id`: mask `BLOB_ATTR_ID_MASK`, shift `BLOB_ATTR_ID_SHIFT`. -/
def blobId (attr : Mem) : Option Nat :=
  (idLen attr).map fun w => w / 2 ^ 24 % 2 ^ 7

/-- `blob_is_extended`: the flag `BLOB_ATTR_EXTENDED`. -/
def blobIsExtended (attr : Mem) : Option Bool :=
  (idLen attr).map fun w => decide (w / 2 ^ 31 % 2 = 1)

/-- `blob_len`: the length field less the header word, as an `unsigned int`.
A field below four wraps. -/
def blobLen (attr : Mem) : Option Nat :=
  (idLen attr).map fun w => (w % 2 ^ 24 + 2 ^ 32 - 4) % 2 ^ 32

/-- `blob_raw_len`: header word included. -/
def blobRawLen (attr : Mem) : Option Nat :=
  (blobLen attr).map fun len => (len + 4) % 2 ^ 32

/-- `blob_pad_len`: padded to `BLOB_ATTR_ALIGN`. -/
def blobPadLen (attr : Mem) : Option Nat :=
  (blobRawLen attr).map fun len => alignUp 4 len

/-- `blob_next`. -/
def blobNext (attr : Mem) : Option Mem :=
  (blobPadLen attr).map fun len => attr.drop len

/-! ## What a header word says -/

theorem idLen_lt {attr : Mem} {w : Nat} (h : idLen attr = some w) : w < 2 ^ 32 := by
  unfold idLen at h
  split at h
  · cases h
    have := beNat_lt (attr.take 4)
    rw [List.length_take_of_le ‹_›] at this
    simpa using this
  · cases h

theorem idLen_eq_none {attr : Mem} : idLen attr = none ↔ attr.length < 4 := by
  unfold idLen
  split <;> simp <;> omega

theorem exists_idLen {attr : Mem} (h : 4 ≤ attr.length) : ∃ w, idLen attr = some w :=
  ⟨_, if_pos h⟩

theorem length_of_idLen {attr : Mem} {w : Nat} (h : idLen attr = some w) :
    4 ≤ attr.length := by
  by_contra hlt
  rw [idLen_eq_none.mpr (by omega)] at h
  cases h

/-- The raw length is the 24-bit field, whatever `blob_len` wrapped to. -/
theorem blobRawLen_eq {attr : Mem} {w : Nat} (h : idLen attr = some w) :
    blobRawLen attr = some (w % 2 ^ 24) := by
  have hlt : w % 2 ^ 24 < 2 ^ 24 := Nat.mod_lt _ (by decide)
  simp only [blobRawLen, blobLen, h, Option.map_some, Option.some.injEq]
  omega

theorem blobPadLen_eq {attr : Mem} {w : Nat} (h : idLen attr = some w) :
    blobPadLen attr = some (alignUp 4 (w % 2 ^ 24)) := by
  rw [blobPadLen, blobRawLen_eq h, Option.map_some]

theorem blobLen_eq {attr : Mem} {w : Nat} (h : idLen attr = some w)
    (hfield : 4 ≤ w % 2 ^ 24) : blobLen attr = some (w % 2 ^ 24 - 4) := by
  have hlt : w % 2 ^ 24 < 2 ^ 24 := Nat.mod_lt _ (by decide)
  simp only [blobLen, h, Option.map_some, Option.some.injEq]
  omega

/-! ## Headers as the encoder writes them -/

/-- The header word with the given flag, id and length. -/
def headerWord (extended : Bool) (id len : Nat) : Nat :=
  (if extended then 2 ^ 31 else 0) + id * 2 ^ 24 + len

/-- The header bytes with the given flag, id and length. -/
def header (extended : Bool) (id len : Nat) : Mem :=
  beBytes 4 (headerWord extended id len)

@[simp] theorem header_length (extended : Bool) (id len : Nat) :
    (header extended id len).length = 4 := by
  simp [header]

theorem headerWord_lt {extended : Bool} {id len : Nat} (hid : id < 2 ^ 7) (hlen : len < 2 ^ 24) :
    headerWord extended id len < 256 ^ 4 := by
  unfold headerWord
  split <;> omega

variable {extended : Bool} {id len : Nat} {rest : Mem}

theorem idLen_header (hid : id < 2 ^ 7) (hlen : len < 2 ^ 24) :
    idLen (header extended id len ++ rest) = some (headerWord extended id len) := by
  have htake : (header extended id len ++ rest).take 4 = header extended id len := by
    rw [← header_length extended id len, List.take_left]
  rw [idLen, if_pos (by simp), htake, header, beNat_beBytes_of_lt (headerWord_lt hid hlen)]

theorem headerWord_mod (hlen : len < 2 ^ 24) : headerWord extended id len % 2 ^ 24 = len := by
  unfold headerWord
  split <;> omega

@[simp] theorem blobData_header : blobData (header extended id len ++ rest) = rest := by
  rw [blobData, ← header_length extended id len, List.drop_left]

theorem blobId_header (hid : id < 2 ^ 7) (hlen : len < 2 ^ 24) :
    blobId (header extended id len ++ rest) = some id := by
  simp only [blobId, idLen_header hid hlen, Option.map_some, Option.some.injEq]
  unfold headerWord
  split <;> omega

theorem blobIsExtended_header (hid : id < 2 ^ 7) (hlen : len < 2 ^ 24) :
    blobIsExtended (header extended id len ++ rest) = some extended := by
  simp only [blobIsExtended, idLen_header hid hlen, Option.map_some, Option.some.injEq]
  unfold headerWord
  cases extended
  · simp only [Bool.false_eq_true, if_false, decide_eq_false_iff_not]
    omega
  · simp only [if_true, decide_eq_true_eq]
    omega

theorem blobRawLen_header (hid : id < 2 ^ 7) (hlen : len < 2 ^ 24) :
    blobRawLen (header extended id len ++ rest) = some len := by
  rw [blobRawLen_eq (idLen_header hid hlen), headerWord_mod hlen]

theorem blobPadLen_header (hid : id < 2 ^ 7) (hlen : len < 2 ^ 24) :
    blobPadLen (header extended id len ++ rest) = some (alignUp 4 len) := by
  rw [blobPadLen, blobRawLen_header hid hlen, Option.map_some]

theorem blobLen_header (hid : id < 2 ^ 7) (hlen : len < 2 ^ 24) (hmin : 4 ≤ len) :
    blobLen (header extended id len ++ rest) = some (len - 4) := by
  have hword : idLen (header extended id len ++ rest) = some (headerWord extended id len) :=
    idLen_header hid hlen
  have h := blobLen_eq hword (by rw [headerWord_mod hlen]; exact hmin)
  rwa [headerWord_mod hlen] at h

/-! ## Walking attributes -/

/-- How a loop body ends: with the next iteration or by leaving the loop. -/
inductive Flow (σ : Type) where
  | next (s : σ)
  | stop (s : σ)

/-- Go on with `k` unless the body left the loop. -/
def Flow.andThen {σ : Type} (k : σ → Option σ) : Flow σ → Option σ
  | next s => k s
  | stop s => some s

/-- The loop variable `int rem` set from an unsigned length: from 2^31 on it is
negative, which ends the loop as zero does. -/
def intRem (len : Nat) : Nat := if len < 2 ^ 31 then len else 0

theorem intRem_of_lt {len : Nat} (h : len < 2 ^ 24) : intRem len = len := by
  rw [intRem, if_pos (by omega)]

/-- `__blob_for_each_attr(pos, attr, rem)` with loop state `σ`: the header of
`pos` is read as soon as `rem > 0`.  The fuel is the number of iterations
still possible; every caller passes `rem`. -/
def forEachAttr {σ : Type} (body : σ → Mem → Option (Flow σ)) :
    Nat → Mem → Nat → σ → Option σ
  | 0, _, _, s => some s
  | fuel + 1, pos, rem, s =>
      if rem = 0 then some s
      else
        (blobPadLen pos).bind fun pad =>
          if pad ≤ rem ∧ 4 ≤ pad then
            (body s pos).bind (Flow.andThen (forEachAttr body fuel (pos.drop pad) (rem - pad)))
          else some s

/-- The attributes a plain loop over `pos`, `rem` hands to its body. -/
def visited : Nat → Mem → Nat → Option (List Mem)
  | 0, _, _ => some []
  | fuel + 1, pos, rem =>
      if rem = 0 then some []
      else
        (blobPadLen pos).bind fun pad =>
          if pad ≤ rem ∧ 4 ≤ pad then
            (visited fuel (pos.drop pad) (rem - pad)).map (pos :: ·)
          else some []

/-- A loop whose body never leaves it is a fold over the visited attributes. -/
theorem forEachAttr_eq_foldlM {σ : Type} (body : σ → Mem → Option σ) (fuel : Nat) :
    ∀ pos rem s, forEachAttr (fun s a => (body s a).map .next) fuel pos rem s
      = (visited fuel pos rem).bind fun attrs => attrs.foldlM body s := by
  induction fuel with
  | zero => intro pos rem s; rfl
  | succ fuel ih =>
      intro pos rem s
      rw [forEachAttr, visited]
      split
      · rfl
      cases hpad : blobPadLen pos with
      | none => rfl
      | some pad =>
          simp only [Option.bind_some]
          split
          · cases hbody : body s pos with
            | none =>
                cases visited fuel (pos.drop pad) (rem - pad) <;> simp [hbody]
            | some s' =>
                simp only [Option.map_some, Option.bind_some, Flow.andThen, ih]
                cases visited fuel (pos.drop pad) (rem - pad) <;> simp [hbody]
          · rfl

end Libubox.Blob
