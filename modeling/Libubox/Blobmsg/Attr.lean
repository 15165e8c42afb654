import Libubox.Blob.Parse

/-!
# Named attributes

A blobmsg attribute is a blob attribute with the extended flag whose payload
starts with a name: a 16-bit length, the name, a zero and padding to the next
multiple of four.  This file holds the accessors of `blobmsg.h` and
`blobmsg_check_attr`, over arbitrary memory, and what they return on the bytes
of a well-formed attribute (`WellFormed`).
-/

namespace Libubox.Blobmsg

open Bytes Blob

/-- The constants of `enum blobmsg_type` the code names. -/
def blobmsgTypeUnspec : Nat := 0
def blobmsgTypeArray : Nat := 1
def blobmsgTypeTable : Nat := 2
def blobmsgTypeString : Nat := 3
def blobmsgTypeInt64 : Nat := 4
def blobmsgTypeInt32 : Nat := 5
def blobmsgTypeInt16 : Nat := 6
def blobmsgTypeInt8 : Nat := 7
def blobmsgTypeLast : Nat := 7

/-- The table `blob_type`, indexed by blobmsg type; no entry is zero. -/
def blobType (id : Nat) : Option Nat := [2, 0, 0, 3, 7, 6, 5, 4][id]?

/-- `blobmsg_hdrlen`. -/
def blobmsgHdrlen (namelen : Nat) : Nat := alignUp 4 (2 + namelen + 1)

/-- `blobmsg_namelen` of the header at `hdr`. -/
def blobmsgNamelen (hdr : Mem) : Option Nat :=
  if 2 ≤ hdr.length then some (beNat (hdr.take 2)) else none

/-- `blobmsg_name`: the address of `hdr->name`. -/
def blobmsgName (attr : Mem) : Mem := (blobData attr).drop 2

/-- How far `blobmsg_data` lies behind `blob_data`. -/
def blobmsgDataOffset (attr : Mem) : Option Nat :=
  (blobIsExtended attr).bind fun extended =>
    if extended then (blobmsgNamelen (blobData attr)).map blobmsgHdrlen else some 0

/-- `blobmsg_data`. -/
def blobmsgData (attr : Mem) : Option Mem :=
  (blobmsgDataOffset attr).map fun offset => (blobData attr).drop offset

/-- `blobmsg_data_len`, an `int`. -/
def blobmsgDataLen (attr : Mem) : Option Int :=
  (blobLen attr).bind fun len =>
    (blobmsgDataOffset attr).map fun (offset : Nat) => Int.bmod ((len : Int) - offset) (2 ^ 32)

/-- An `int` passed as an `unsigned int`. -/
def toUnsigned (n : Int) : Nat := (n % 2 ^ 32).toNat

/-- `blobmsg_check_attr`. -/
def blobmsgCheckAttr (attr : Mem) (name : Bool) : Option Bool :=
  (blobLen attr).bind fun len =>
    if len < 2 then some false
    else
      (blobmsgNamelen (blobData attr)).bind fun namelen =>
        if namelen = 0 ∧ name then some false
        else if len - 2 < namelen then some false
        else
          (blobmsgName attr)[namelen]?.bind fun terminator =>
            if terminator ≠ 0 then some false
            else
              (blobId attr).bind fun id =>
                (blobmsgDataLen attr).bind fun dataLen =>
                  (blobmsgData attr).bind fun data =>
                    if blobmsgTypeLast < id then some false
                    else
                      (blobType id).bind fun type =>
                        if type = 0 then some true
                        else blobCheckType data (toUnsigned dataLen) type

/-- The start of `blobmsg_for_each_attr`: `rem` and `pos`. -/
def blobmsgForEachStart (attr : Mem) : Option (Nat × Mem) :=
  (blobmsgDataLen attr).bind fun rem => (blobmsgData attr).map fun pos => (rem.toNat, pos)

/-- `blobmsg_for_each_attr` with loop state `σ`.  A negative `rem` ends the
loop at once, as zero does. -/
def blobmsgForEachAttr {σ : Type} (body : σ → Mem → Option (Flow σ)) (attr : Mem) (s : σ) :
    Option σ :=
  (blobmsgForEachStart attr).bind fun (rem, pos) => forEachAttr body rem pos rem s

/-! ## Arithmetic of headers -/

theorem blobmsgHdrlen_mod (n : Nat) : blobmsgHdrlen n % 4 = 0 := alignUp_four_mod _

theorem lt_blobmsgHdrlen (n : Nat) : 2 + n < blobmsgHdrlen n := by
  have := le_alignUp_four (2 + n + 1)
  unfold blobmsgHdrlen
  omega

theorem blobmsgHdrlen_le (n : Nat) : blobmsgHdrlen n ≤ n + 6 := by
  have := alignUp_four_lt (2 + n + 1)
  unfold blobmsgHdrlen
  omega

theorem toUnsigned_natCast {n : Nat} (h : n < 2 ^ 32) : toUnsigned n = n := by
  unfold toUnsigned
  omega

theorem intBmod_natCast {n : Nat} (h : n < 2 ^ 31) : Int.bmod n (2 ^ 32) = n := by
  rw [Int.bmod_def]
  have : (n : Int) % ((2 ^ 32 : Nat) : Int) = n := by omega
  rw [this, if_pos (by omega)]

/-! ## Well-formed attributes -/

/-- The name part of a payload. -/
def nameHeader (name pad : Mem) : Mem := beBytes 2 name.length ++ name ++ pad

/-- A C string with a 16-bit length, and padding that starts with its
terminator. -/
structure NameFits (name pad : Mem) : Prop where
  short : name.length < 2 ^ 16
  noNul : 0 ∉ name
  terminated : ∃ rest, pad = 0 :: rest
  length : 2 + name.length + pad.length = blobmsgHdrlen name.length

/-- What the type of an attribute that is not a container asks of its data. -/
def DataFits (type : Nat) (data : Mem) : Prop :=
  (type = blobmsgTypeUnspec) ∨
  (type = blobmsgTypeString ∧ data[data.length - 1]? = some 0) ∨
  (type = blobmsgTypeInt64 ∧ data.length = 8) ∨
  (type = blobmsgTypeInt32 ∧ data.length = 4) ∨
  (type = blobmsgTypeInt16 ∧ data.length = 2) ∨
  (type = blobmsgTypeInt8 ∧ data.length = 1)

/-- Tables and arrays. -/
def IsContainer (type : Nat) : Prop := type = blobmsgTypeArray ∨ type = blobmsgTypeTable

instance (type : Nat) : Decidable (IsContainer type) :=
  inferInstanceAs (Decidable (_ ∨ _))

theorem DataFits.not_container {type : Nat} {data : Mem} (h : DataFits type data) :
    ¬ IsContainer type := by
  unfold IsContainer
  unfold DataFits at h
  simp only [blobmsgTypeUnspec, blobmsgTypeArray, blobmsgTypeTable, blobmsgTypeString,
    blobmsgTypeInt64, blobmsgTypeInt32, blobmsgTypeInt16, blobmsgTypeInt8] at *
  omega

/-- The header and name of an attribute with `len` bytes of data. -/
def frame (type : Nat) (name pad : Mem) (len : Nat) : Mem :=
  header true type (4 + (blobmsgHdrlen name.length + len)) ++ nameHeader name pad

/-- A frame that can be read back. -/
structure WellFormed (type : Nat) (name pad : Mem) (len : Nat) : Prop where
  type_le : type ≤ blobmsgTypeLast
  name_fits : NameFits name pad
  small : 4 + (blobmsgHdrlen name.length + len) < 2 ^ 24

theorem nameHeader_length {name pad : Mem} (h : NameFits name pad) :
    (nameHeader name pad).length = blobmsgHdrlen name.length := by
  rw [← h.length]
  simp only [nameHeader, List.length_append, beBytes_length]

theorem frame_length {type len : Nat} {name pad : Mem} (h : NameFits name pad) :
    (frame type name pad len).length = 4 + blobmsgHdrlen name.length := by
  rw [frame, List.length_append, header_length, nameHeader_length h]

theorem blobmsgNamelen_nameHeader {name pad rest : Mem} (h : NameFits name pad) :
    blobmsgNamelen (nameHeader name pad ++ rest) = some name.length := by
  have htake : (nameHeader name pad ++ rest).take 2 = beBytes 2 name.length := by
    rw [nameHeader, List.append_assoc, List.append_assoc, List.take_left' (beBytes_length 2 _)]
  have hlen := nameHeader_length h
  have hpos := lt_blobmsgHdrlen name.length
  rw [blobmsgNamelen, if_pos (by rw [List.length_append]; omega), htake,
    beNat_beBytes_of_lt (by simpa using h.short)]

namespace WellFormed

variable {type len : Nat} {name pad rest : Mem}

theorem type_lt (h : WellFormed type name pad len) : type < 2 ^ 7 := by
  have := h.type_le
  unfold blobmsgTypeLast at this
  omega

theorem blobData_eq : blobData (frame type name pad len ++ rest) = nameHeader name pad ++ rest := by
  rw [frame, List.append_assoc, blobData_header]

theorem blobmsgName_eq : blobmsgName (frame type name pad len ++ rest) = name ++ (pad ++ rest) := by
  rw [blobmsgName, blobData_eq, nameHeader, List.append_assoc, List.append_assoc,
    List.drop_left' (beBytes_length 2 _)]

theorem blobLen_eq (h : WellFormed type name pad len) :
    blobLen (frame type name pad len ++ rest) = some (blobmsgHdrlen name.length + len) := by
  rw [frame, List.append_assoc, blobLen_header h.type_lt h.small (by omega),
    Nat.add_sub_cancel_left]

theorem blobId_eq (h : WellFormed type name pad len) :
    blobId (frame type name pad len ++ rest) = some type := by
  rw [frame, List.append_assoc, blobId_header h.type_lt h.small]

theorem blobPadLen_eq (h : WellFormed type name pad len) :
    blobPadLen (frame type name pad len ++ rest)
      = some (4 + blobmsgHdrlen name.length + alignUp 4 len) := by
  have hmod := blobmsgHdrlen_mod name.length
  have hpad : alignUp 4 (4 + (blobmsgHdrlen name.length + len))
      = 4 + blobmsgHdrlen name.length + alignUp 4 len := by
    unfold alignUp
    omega
  rw [frame, List.append_assoc, blobPadLen_header h.type_lt h.small, hpad]

theorem blobmsgDataOffset_eq (h : WellFormed type name pad len) :
    blobmsgDataOffset (frame type name pad len ++ rest) = some (blobmsgHdrlen name.length) := by
  have hext : blobIsExtended (frame type name pad len ++ rest) = some true := by
    rw [frame, List.append_assoc, blobIsExtended_header h.type_lt h.small]
  rw [blobmsgDataOffset, hext, Option.bind_some, if_pos rfl, blobData_eq,
    blobmsgNamelen_nameHeader h.name_fits, Option.map_some]

theorem blobmsgData_eq (h : WellFormed type name pad len) :
    blobmsgData (frame type name pad len ++ rest) = some rest := by
  rw [blobmsgData, h.blobmsgDataOffset_eq, Option.map_some, blobData_eq,
    List.drop_left' (nameHeader_length h.name_fits)]

theorem blobmsgDataLen_eq (h : WellFormed type name pad len) :
    blobmsgDataLen (frame type name pad len ++ rest) = some (len : Int) := by
  have hsmall := h.small
  have hsub : ((blobmsgHdrlen name.length + len : Nat) : Int) - (blobmsgHdrlen name.length : Nat)
      = (len : Int) := by omega
  rw [blobmsgDataLen, h.blobLen_eq, Option.bind_some, h.blobmsgDataOffset_eq, Option.map_some,
    hsub, intBmod_natCast (by omega)]

/-- The name reads back up to its terminator. -/
theorem cString_name (h : WellFormed type name pad len) :
    cString (blobmsgName (frame type name pad len ++ rest)) = some name := by
  obtain ⟨tail, htail⟩ := h.name_fits.terminated
  rw [blobmsgName_eq, htail, List.cons_append, cString_append h.name_fits.noNul]

/-- `blobmsg_for_each_attr` starts at the data. -/
theorem blobmsgForEachStart_eq (h : WellFormed type name pad len) :
    blobmsgForEachStart (frame type name pad len ++ rest) = some (len, rest) := by
  rw [blobmsgForEachStart, h.blobmsgDataLen_eq, Option.bind_some, h.blobmsgData_eq,
    Option.map_some, Int.toNat_natCast]

/-- `blobmsg_check_attr` runs through to the check of the data. -/
theorem blobmsgCheckAttr_eq (h : WellFormed type name pad len) {named : Bool}
    (hnamed : named = true → name ≠ []) :
    blobmsgCheckAttr (frame type name pad len ++ rest) named
      = (blobType type).bind fun t =>
          if t = 0 then some true else blobCheckType rest len t := by
  obtain ⟨tail, htail⟩ := h.name_fits.terminated
  have hhdr := lt_blobmsgHdrlen name.length
  have hterm : (blobmsgName (frame type name pad len ++ rest))[name.length]? = some 0 := by
    rw [blobmsgName_eq, htail, List.getElem?_append_right (Nat.le_refl _), Nat.sub_self]
    rfl
  have hname : ¬ (name.length = 0 ∧ named = true) := fun hboth =>
    hnamed hboth.2 (List.length_eq_zero_iff.mp hboth.1)
  have hlen : toUnsigned (len : Int) = len := toUnsigned_natCast (by have := h.small; omega)
  rw [blobmsgCheckAttr, h.blobLen_eq, Option.bind_some, if_neg (by omega), blobData_eq,
    blobmsgNamelen_nameHeader h.name_fits, Option.bind_some, if_neg hname, if_neg (by omega),
    hterm, Option.bind_some, if_neg (by simp), h.blobId_eq, Option.bind_some,
    h.blobmsgDataLen_eq, Option.bind_some, h.blobmsgData_eq, Option.bind_some,
    if_neg (by have := h.type_le; omega), hlen]

/-- Containers pass. -/
theorem blobmsgCheckAttr_container (h : WellFormed type name pad len) {named : Bool}
    (hnamed : named = true → name ≠ []) (hcontainer : IsContainer type) :
    blobmsgCheckAttr (frame type name pad len ++ rest) named = some true := by
  rw [h.blobmsgCheckAttr_eq hnamed]
  rcases hcontainer with rfl | rfl <;> rfl

/-- So do the other types with data of the right form. -/
theorem blobmsgCheckAttr_data {data : Mem} (h : WellFormed type name pad data.length)
    {named : Bool} (hnamed : named = true → name ≠ []) (hdata : DataFits type data) :
    blobmsgCheckAttr (frame type name pad data.length ++ (data ++ rest)) named = some true := by
  rw [h.blobmsgCheckAttr_eq hnamed]
  rcases hdata with rfl | ⟨rfl, hlast⟩ | ⟨rfl, hlen⟩ | ⟨rfl, hlen⟩ | ⟨rfl, hlen⟩ | ⟨rfl, hlen⟩
  · rfl
  · -- a string: its last byte is its terminator
    have hpos : data.length - 1 < data.length := (List.getElem?_eq_some_iff.mp hlast).1
    have hget : (data ++ rest)[data.length - 1]? = some 0 := by
      rw [List.getElem?_append_left hpos, hlast]
    have hmin : blobTypeMinlen 3 = some 1 := rfl
    have hcheck : blobCheckType (data ++ rest) data.length 3 = some true := by
      rw [blobCheckType, if_neg (by decide), hmin, Option.bind_some,
        if_neg (by unfold blobAttrInt8; omega), if_neg (by omega),
        if_pos (show (3 : Int) = blobAttrString from rfl), hget]
      rfl
    exact hcheck
  all_goals rw [hlen]; rfl

end WellFormed

end Libubox.Blobmsg
