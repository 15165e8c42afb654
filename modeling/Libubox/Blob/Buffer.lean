import Libubox.Blob.Attr

/-!
# The blob encoder

`struct blob_buf` and the functions of `blob.c` that write into it.  The block
at `buf->buf` is a byte list together with the address it lives at, so the
moves a `realloc` makes and the cookies that survive them are part of the
model: a pointer into the buffer is an address, and `attr_to_offset` and
`offset_to_attr` are the only way to carry one across a growth.

An encoder function returns `none` when it would touch memory outside the
block.  A `NULL` result is an ordinary value.
-/

namespace Libubox.Blob

open Bytes

/-- `struct blob_buf`.  `mem` is the block at address `buf`, `buflen` bytes
long; `realloc` answers the coming calls of `realloc`, `none` for `NULL`. -/
structure BlobBuf where
  head : Nat
  buf : Nat
  mem : Mem
  realloc : Nat → Option Nat

namespace BlobBuf

/-- `buf->buflen`. -/
def buflen (b : BlobBuf) : Nat := b.mem.length

/-- The memory of the block from address `p` on. -/
def ptr (b : BlobBuf) (p : Nat) : Mem := b.mem.drop (p - b.buf)

/-- Store bytes at an address inside the block. -/
def store (b : BlobBuf) (p : Nat) (bs : Mem) : Option BlobBuf :=
  if b.buf ≤ p ∧ p - b.buf + bs.length ≤ b.mem.length then
    some { b with mem := overwrite b.mem (p - b.buf) bs }
  else none

end BlobBuf

/-- `attr_to_offset`, less the constant `BLOB_COOKIE` that keeps a cookie from
being `NULL`. -/
def attrToOffset (b : BlobBuf) (attr : Nat) : Nat := attr - b.buf

/-- `offset_to_attr` of an offset without `BLOB_COOKIE`. -/
def offsetToAttr (b : BlobBuf) (offset : Nat) : Nat := b.buf + offset

/-- `blob_buffer_grow`: the default `buf->grow`. -/
def blobBufferGrow (b : BlobBuf) (minlen : Nat) : Bool × BlobBuf :=
  let delta := (minlen / 256 + 1) * 256
  let rest := fun k => b.realloc (k + 1)
  match b.realloc 0 with
  | none => (false, { b with realloc := rest })
  | some new =>
      (true, { b with buf := new, mem := b.mem ++ List.replicate delta 0, realloc := rest })

/-- `blob_buf_grow`. -/
def blobBufGrow (b : BlobBuf) (required : Nat) : Bool × BlobBuf :=
  let offsetHead := attrToOffset b b.head
  match blobBufferGrow b required with
  | (false, b) => (false, b)
  | (true, b) => (true, { b with head := offsetToAttr b offsetHead })

/-- `blob_init`. -/
def blobInit (b : BlobBuf) (attr id len : Nat) : Option BlobBuf :=
  b.store attr (header false (id % 2 ^ 7) (len % 2 ^ 24))

/-- `blob_fill_pad`. -/
def blobFillPad (b : BlobBuf) (attr : Nat) : Option BlobBuf :=
  (blobRawLen (b.ptr attr)).bind fun raw =>
    (blobPadLen (b.ptr attr)).bind fun len =>
      if raw < len then b.store (attr + raw) (List.replicate (len - raw) 0) else some b

/-- `blob_set_raw_len`. -/
def blobSetRawLen (b : BlobBuf) (attr len : Nat) : Option BlobBuf :=
  (idLen (b.ptr attr)).bind fun w =>
    b.store attr (beBytes 4 (w / 2 ^ 24 * 2 ^ 24 + len % 2 ^ 24))

/-- The first half of `blob_add`: the address at `pos` once the block has room
for a header and `payload` more bytes there. -/
def blobAddRoom (b : BlobBuf) (pos payload : Nat) : Option Nat × BlobBuf :=
  let offset := attrToOffset b pos
  let used := offset + 4 + payload
  if b.buflen < used then
    match blobBufGrow b (used - b.buflen) with
    | (false, b) => (none, b)
    | (true, b) => (some (offsetToAttr b offset), b)
  else (some pos, b)

/-- `blob_add`. -/
def blobAdd (b : BlobBuf) (pos id payload : Nat) : Option (Option Nat × BlobBuf) :=
  match blobAddRoom b pos payload with
  | (none, b) => some (none, b)
  | (some attr, b) =>
      (blobInit b attr id (payload + 4)).bind fun b =>
        (blobFillPad b attr).map fun b => (some attr, b)

/-- `blob_buf_init` of a buffer that may hold an older block; `true` stands
for the return value `0`. -/
def blobBufInit (b : BlobBuf) (id : Nat) : Option (Bool × BlobBuf) :=
  (blobAdd { b with head := b.buf } b.buf id 0).map fun (attr, b) => (attr.isSome, b)

/-- `blob_new`. -/
def blobNew (b : BlobBuf) (id payload : Nat) : Option (Option Nat × BlobBuf) :=
  (blobPadLen (b.ptr b.head)).bind fun len =>
    (blobAdd b (b.head + len) id payload).bind fun
      | (none, b) => some (none, b)
      | (some attr, b) =>
          (blobPadLen (b.ptr b.head)).bind fun headLen =>
            (blobPadLen (b.ptr attr)).bind fun attrLen =>
              (blobSetRawLen b b.head (headLen + attrLen)).map fun b => (some attr, b)

/-- `blob_put_raw` of the bytes `data`. -/
def blobPutRaw (b : BlobBuf) (data : Mem) : Option (Option Nat × BlobBuf) :=
  if data.length < 4 then some (none, b)
  else
    (blobPadLen (b.ptr b.head)).bind fun len =>
      (blobAdd b (b.head + len) 0 (data.length - 4)).bind fun
        | (none, b) => some (none, b)
        | (some attr, b) =>
            (blobPadLen (b.ptr b.head)).bind fun headLen =>
              (blobSetRawLen b b.head (headLen + data.length)).bind fun b =>
                (b.store attr data).map fun b => (some attr, b)

/-- `blob_put` of the bytes `data`. -/
def blobPut (b : BlobBuf) (id : Nat) (data : Mem) : Option (Option Nat × BlobBuf) :=
  (blobNew b id data.length).bind fun
    | (none, b) => some (none, b)
    | (some attr, b) => (b.store (attr + 4) data).map fun b => (some attr, b)

/-- `blob_nest_start`: the result is the cookie. -/
def blobNestStart (b : BlobBuf) (id : Nat) : Option (Option Nat × BlobBuf) :=
  let offset := attrToOffset b b.head
  (blobNew b id 0).map fun
    | (none, b) => (none, { b with head := 0 })
    | (some attr, b) => (some offset, { b with head := attr })

/-- `blob_nest_end`. -/
def blobNestEnd (b : BlobBuf) (cookie : Nat) : Option BlobBuf :=
  let attr := offsetToAttr b cookie
  (blobPadLen (b.ptr attr)).bind fun len =>
    (blobLen (b.ptr b.head)).bind fun headLen =>
      (blobSetRawLen b attr (len + headLen)).map fun b => { b with head := attr }

end Libubox.Blob
