import Libubox.Blob.Layout
import Libubox.Blobmsg.Attr

/-!
# Building messages

The functions of `blobmsg.c` and `blobmsg.h` that write into a buffer, and what
each of them appends in terms of the invariant `Laid`.

A name is `none` for a `NULL` pointer.  An open string buffer is an attribute
that stands complete behind the used prefix, with a length field that leaves
its data out, and that its container does not count yet (`TextOpen`).
-/

namespace Libubox.Blobmsg

open Bytes Blob

/-! ## The source -/

/-- Subtraction of `unsigned int`s. -/
def unsignedSub (m n : Nat) : Nat := (m + 2 ^ 32 - n) % 2 ^ 32

/-- `blobmsg_new`: the attribute and where its data starts. -/
def blobmsgNew (b : BlobBuf) (type : Nat) (name : Option Mem) (payloadLen : Nat) :
    Option (Option (Nat × Nat) × BlobBuf) :=
  let name := name.getD []
  let namelen := name.length
  (blobNew b type (blobmsgHdrlen namelen + payloadLen)).bind fun
    | (none, b) => some (none, b)
    | (some attr, b) =>
        (idLen (b.ptr attr)).bind fun w =>
          (b.store attr (beBytes 4 (w % 2 ^ 31 + 2 ^ 31))).bind fun b =>
            (b.store (attr + 4) (beBytes 2 namelen)).bind fun b =>
              (b.store (attr + 6) (name ++ [0])).bind fun b =>
                (blobmsgDataOffset (b.ptr attr)).bind fun offset =>
                  let padEnd := attr + 4 + offset
                  let padStart := attr + 6 + namelen
                  (if padStart < padEnd then
                      b.store padStart (List.replicate (padEnd - padStart) 0)
                    else some b).map fun b => (some (attr, padEnd), b)

/-- `blobmsg_add_field` of the bytes `data`; `true` stands for `0`. -/
def blobmsgAddField (b : BlobBuf) (type : Nat) (name : Option Mem) (data : Mem) :
    Option (Bool × BlobBuf) :=
  (blobmsgNew b type name data.length).bind fun
    | (none, b) => some (false, b)
    | (some (_, dataDest), b) =>
        if 0 < data.length then (b.store dataDest data).map fun b => (true, b)
        else some (true, b)

def blobmsgAddU8 (b : BlobBuf) (name : Option Mem) (val : UInt8) : Option (Bool × BlobBuf) :=
  blobmsgAddField b blobmsgTypeInt8 name [val]

def blobmsgAddU16 (b : BlobBuf) (name : Option Mem) (val : UInt16) : Option (Bool × BlobBuf) :=
  blobmsgAddField b blobmsgTypeInt16 name (beBytes 2 val.toNat)

def blobmsgAddU32 (b : BlobBuf) (name : Option Mem) (val : UInt32) : Option (Bool × BlobBuf) :=
  blobmsgAddField b blobmsgTypeInt32 name (beBytes 4 val.toNat)

def blobmsgAddU64 (b : BlobBuf) (name : Option Mem) (val : UInt64) : Option (Bool × BlobBuf) :=
  blobmsgAddField b blobmsgTypeInt64 name (beBytes 8 val.toNat)

/-- `blobmsg_add_string` of a C string. -/
def blobmsgAddString (b : BlobBuf) (name : Option Mem) (string : Mem) : Option (Bool × BlobBuf) :=
  blobmsgAddField b blobmsgTypeString name (string ++ [0])

/-- The bytes `blobmsg_data(attr)`, `blobmsg_data_len(attr)`. -/
def blobmsgDataBytes (attr : Mem) : Option Mem :=
  (blobmsgData attr).bind fun data =>
    (blobmsgDataLen attr).bind fun len =>
      if toUnsigned len ≤ data.length then some (data.take (toUnsigned len)) else none

/-- `blobmsg_add_blob` of an attribute outside the buffer. -/
def blobmsgAddBlob (b : BlobBuf) (attr : Mem) : Option (Bool × BlobBuf) :=
  (blobId attr).bind fun type =>
    (cString (blobmsgName attr)).bind fun name =>
      (blobmsgDataBytes attr).bind fun data => blobmsgAddField b type (some name) data

/-- `blobmsg_open_nested`: the result is the cookie. -/
def blobmsgOpenNested (b : BlobBuf) (name : Option Mem) (array : Bool) :
    Option (Option Nat × BlobBuf) :=
  let type := if array then blobmsgTypeArray else blobmsgTypeTable
  let offset := attrToOffset b b.head
  let name := name.getD []
  (blobmsgNew b type (some name) 0).bind fun
    | (none, b) => some (none, b)
    | (some (head, _), b) =>
        (blobPadLen (b.ptr b.head)).bind fun len =>
          (blobSetRawLen b b.head (unsignedSub len (blobmsgHdrlen name.length))).map fun b =>
            (some offset, { b with head := head })

/-- `blobmsg_alloc_string_buffer`: the result is the address of the data. -/
def blobmsgAllocStringBuffer (b : BlobBuf) (name : Option Mem) (maxlen : Nat) :
    Option (Option Nat × BlobBuf) :=
  (blobmsgNew b blobmsgTypeString name maxlen).bind fun
    | (none, b) => some (none, b)
    | (some (attr, dataDest), b) =>
        (blobPadLen (b.ptr b.head)).bind fun headLen =>
          (blobPadLen (b.ptr attr)).bind fun attrLen =>
            (blobSetRawLen b b.head (unsignedSub headLen attrLen)).bind fun b =>
              (blobRawLen (b.ptr attr)).bind fun raw =>
                (blobSetRawLen b attr (unsignedSub raw maxlen)).map fun b => (some dataDest, b)

/-- `blob_next(buf->head)`. -/
def blobNextHead (b : BlobBuf) : Option Nat :=
  (blobPadLen (b.ptr b.head)).map fun len => b.head + len

/-- The address `blobmsg_data(attr)` of an attribute in the buffer. -/
def blobmsgDataAt (b : BlobBuf) (attr : Nat) : Option Nat :=
  (blobmsgDataOffset (b.ptr attr)).map fun offset => attr + 4 + offset

/-- `blobmsg_realloc_string_buffer`.  `required` is an `int`. -/
def blobmsgReallocStringBuffer (b : BlobBuf) (maxlen : Nat) : Option (Nat × BlobBuf) :=
  (blobNextHead b).bind fun attr =>
    (blobPadLen (b.ptr attr)).bind fun attrLen =>
      let offset := attrToOffset b attr + attrLen
      let required := Int.bmod ((maxlen : Int) - ((b.buflen : Int) - offset)) (2 ^ 32)
      if required ≤ 0 then (blobmsgDataAt b attr).map fun data => (data, b)
      else
        let b := (blobBufGrow b required.toNat).2
        (blobNextHead b).bind fun attr => (blobmsgDataAt b attr).map fun data => (data, b)

/-- `blobmsg_add_string_buffer`. -/
def blobmsgAddStringBuffer (b : BlobBuf) : Option BlobBuf :=
  (blobNextHead b).bind fun attr =>
    (blobmsgDataAt b attr).bind fun data =>
      (cString (b.ptr data)).bind fun text =>
        (blobRawLen (b.ptr attr)).bind fun raw =>
          (blobSetRawLen b attr (raw + (text.length + 1))).bind fun b =>
            (blobFillPad b attr).bind fun b =>
              (blobRawLen (b.ptr b.head)).bind fun headRaw =>
                (blobPadLen (b.ptr attr)).bind fun attrLen =>
                  blobSetRawLen b b.head (headRaw + attrLen)

/-! ## Frames the encoder writes -/

/-- The zeros from the terminator of a name to the data. -/
def namePad (name : Mem) : Mem :=
  List.replicate (blobmsgHdrlen name.length - 2 - name.length) 0

/-- A named attribute with everything the encoder writes. -/
def fieldBytes (type : Nat) (name data : Mem) : Mem :=
  attrBytes true type (nameHeader name (namePad name) ++ data)

/-- A C string whose length fits its field. -/
structure NameOk (name : Mem) : Prop where
  short : name.length < 2 ^ 16
  noNul : 0 ∉ name

theorem NameOk.fits {name : Mem} (h : NameOk name) : NameFits name (namePad name) := by
  have hlt := lt_blobmsgHdrlen name.length
  refine ⟨h.short, h.noNul, ?_, ?_⟩
  · obtain ⟨k, hk⟩ : ∃ k, blobmsgHdrlen name.length - 2 - name.length = k + 1 :=
      ⟨blobmsgHdrlen name.length - 3 - name.length, by omega⟩
    exact ⟨List.replicate k 0, by rw [namePad, hk, List.replicate_succ]⟩
  · rw [namePad, List.length_replicate]
    omega

theorem unsignedSub_of_le {m n : Nat} (h : n ≤ m) (hm : m < 2 ^ 32) : unsignedSub m n = m - n := by
  unfold unsignedSub
  omega

theorem padding_append {front data : Mem} (h : front.length % 4 = 0) :
    padding (front ++ data) = padding data := by
  have halign : alignUp 4 (front.length + data.length) - (front.length + data.length)
      = alignUp 4 data.length - data.length := by
    unfold alignUp
    omega
  rw [padding, List.length_append, halign, padding]

/-- A named attribute in the form the accessors read. -/
theorem attrBytes_frame {type : Nat} {name pad data : Mem} (h : NameFits name pad) :
    attrBytes true type (nameHeader name pad ++ data)
      = frame type name pad data.length ++ (data ++ padding data) := by
  have hlen := nameHeader_length h
  rw [attrBytes, padding_append (by rw [hlen]; exact blobmsgHdrlen_mod _),
    List.length_append, hlen, frame]
  simp only [List.append_assoc]

theorem fieldBytes_eq {type : Nat} {name data : Mem} (h : NameOk name) :
    fieldBytes type name data
      = frame type name (namePad name) data.length ++ (data ++ padding data) :=
  attrBytes_frame h.fits

theorem fieldBytes_length {type : Nat} {name data : Mem} (h : NameOk name) :
    (fieldBytes type name data).length
      = 4 + blobmsgHdrlen name.length + alignUp 4 data.length := by
  have := le_alignUp_four data.length
  rw [fieldBytes_eq h]
  simp only [List.length_append, frame_length h.fits, padding, List.length_replicate]
  omega

variable {b : BlobBuf} {f : OpenAttr} {outer : List OpenAttr} {spare : Mem}

/-- The bytes that were pushed last, read back. -/
theorem ptr_pushed {bs : Mem} (h : Laid b (f.push bs) outer spare) :
    b.ptr (b.buf + (usedBytes f outer).length) = bs ++ spare := by
  have hmem : b.mem = beforePushed f outer bs.length ++ (bs ++ spare) := by
    rw [h.mem_eq, usedBytes_push, List.append_assoc]
  exact BlobBuf.ptr_eq hmem (by rw [beforePushed_length])

end Libubox.Blobmsg
