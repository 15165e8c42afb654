import Libubox.Lib.Bytes
import Libubox.Lib.Chain
import Mathlib.Tactic.Linarith

/-!
# Stream buffers

`struct ustream_buf`, `struct ustream_buf_list` and the functions over a list
of buffers that reading and writing share.  A buffer is named by a number;
every list keeps its own heap.

A result `none` stands for a call that does not go on: a null or dangling
pointer is followed, a pointer leaves its buffer, `abort` is called, or a sum
of two `int` leaves the type.
-/

namespace Libubox.Ustream

open Bytes Chain

/-! ## The source -/

abbrev INT_MAX : Int := 2147483647

/-- The sum of two `int`. -/
def addInt (a b : Int) : Option Int :=
  if -INT_MAX - 1 ≤ a + b ∧ a + b ≤ INT_MAX then some (a + b) else none

/-- `struct ustream_buf` without its link: `data`, `tail` and `end` as offsets
from `head`, and the memory at `head`. -/
structure Chunk where
  data : Nat
  tail : Nat
  size : Nat
  bytes : List UInt8
  data_le : data ≤ tail
  tail_le : tail ≤ size
  size_pos : 0 < size
  size_le : size ≤ bytes.length

/-- The bytes from `data` to `tail`. -/
def Chunk.content (c : Chunk) : List UInt8 := (c.bytes.drop c.data).take (c.tail - c.data)

/-- `ustream_init_buf` on the memory `bytes`. -/
def ustreamInitBuf (bytes : List UInt8) (len : Nat) : Option Chunk :=
  if h : 0 < len ∧ len ≤ bytes.length then
    some
      { data := 0, tail := 0, size := len, bytes := overwrite bytes 0 [0]
        data_le := Nat.le_refl 0, tail_le := Nat.zero_le len, size_pos := h.1
        size_le := by
          have hlen : 0 + [(0 : UInt8)].length ≤ bytes.length := by
            simp
            omega
          rw [overwrite_length hlen]
          exact h.2 }
  else none

/-- Bytes are stored at `tail`. -/
def Chunk.store (c : Chunk) (bs : List UInt8) : Option Chunk :=
  if h : c.tail + bs.length ≤ c.bytes.length then
    some { c with
      bytes := overwrite c.bytes c.tail bs
      size_le := by
        rw [overwrite_length h]
        exact c.size_le }
  else none

/-- `tail` moves on by `n`. -/
def Chunk.extend (c : Chunk) (n : Nat) : Option Chunk :=
  if h : c.tail + n ≤ c.size then
    some { c with tail := c.tail + n, data_le := Nat.le_add_right_of_le c.data_le, tail_le := h }
  else none

/-- `data` moves on by `n`. -/
def Chunk.advance (c : Chunk) (n : Nat) : Option Chunk :=
  if h : c.data + n ≤ c.tail then some { c with data := c.data + n, data_le := h } else none

/-- The data is moved to `head`. -/
def Chunk.move (c : Chunk) : Chunk :=
  { c with
    data := 0
    tail := c.tail - c.data
    bytes := overwrite c.bytes 0 c.content
    data_le := Nat.zero_le _
    tail_le := Nat.le_trans (Nat.sub_le _ _) c.tail_le
    size_le := by
      have hlen : c.content.length ≤ c.bytes.length := by
        rw [Chunk.content, List.length_take, List.length_drop]
        omega
      rw [overwrite_length (by simpa using hlen)]
      exact c.size_le }

/-- `struct ustream_buf`. -/
abbrev UstreamBuf := Cell Nat Chunk

/-- `struct ustream_buf_list` and the heap its buffers live in: `fresh` is the
next buffer `malloc` returns, `garbage` what it holds then. -/
structure BufList where
  head : Option Nat
  dataTail : Option Nat
  tail : Option Nat
  dataBytes : Int
  minBuffers : Int
  maxBuffers : Int
  bufferLen : Nat
  buffers : Int
  heap : Heap Nat Chunk
  fresh : Nat
  garbage : Nat → Nat → UInt8

/-- The structure of one buffer is changed. -/
def BufList.put (l : BufList) (buf : Nat) (b : Option UstreamBuf) : BufList :=
  { l with heap := Function.update l.heap buf b }

/-- `data_bytes` is changed. -/
def BufList.setDataBytes (l : BufList) (dataBytes : Int) : BufList := { l with dataBytes }

/-- `ustream_add_buf`. -/
def ustreamAddBuf (l : BufList) (buf : Nat) : Option BufList := do
  let l := { l with buffers := ← addInt l.buffers 1 }
  let l ← match l.tail with
    | none => pure { l with head := some buf }
    | some t => do
        let b ← l.heap t
        pure (l.put t (some { b with next := some buf }))
  let b ← l.heap buf
  let l := { l.put buf (some { b with next := none }) with tail := some buf }
  pure { l with dataTail := l.dataTail.or l.head }

/-- `ustream_can_alloc`. -/
def ustreamCanAlloc (l : BufList) : Bool := l.maxBuffers ≤ 0 || l.buffers < l.maxBuffers

/-- `ustream_alloc_default`; `stringData` is `s->string_data`. -/
def ustreamAllocDefault (stringData : Bool) (l : BufList) : Option (BufList × Int) :=
  if !ustreamCanAlloc l then some (l, -1)
  else do
    let buf := l.fresh
    let bytes := (List.range (l.bufferLen + stringData.toNat)).map (l.garbage buf)
    let c ← ustreamInitBuf bytes l.bufferLen
    let l ← ustreamAddBuf { l.put buf (some ⟨c, none⟩) with fresh := buf + 1 } buf
    pure (l, 0)

/-- `ustream_should_move`. -/
def ustreamShouldMove (l : BufList) (buf : Nat) (c : Chunk) (len : Nat) : Bool :=
  if c.data = 0 then false
  else if c.size / 2 < c.data then true
  else if c.tail - c.data < 32 && c.size / 4 < c.data then true
  else if some buf ≠ l.tail || ustreamCanAlloc l then false
  else c.size - c.tail < len

/-- `ustream_free_buf`. -/
def ustreamFreeBuf (l : BufList) (buf : Nat) : Option BufList := do
  let b ← l.heap buf
  let buffers ← addInt l.buffers (-1)
  let l := { l with
    head := if some buf = l.head then b.next else l.head
    dataTail := if some buf = l.dataTail then b.next else l.dataTail
    tail := if some buf = l.tail then none else l.tail
    buffers }
  if l.buffers ≥ l.minBuffers then pure (l.put buf none)
  else
    -- recycle
    let c ← ustreamInitBuf b.val.bytes b.val.size
    ustreamAddBuf (l.put buf (some ⟨c, none⟩)) buf

/-- `ustream_fixup_string`. -/
def ustreamFixupString (stringData : Bool) (c : Chunk) : Option Chunk :=
  if stringData then c.store [0] else some c

/-- The end of `ustream_prepare_buf`: another buffer is allocated. -/
def ustreamGrow (stringData : Bool) (l : BufList) : Option (BufList × Bool) :=
  if !ustreamCanAlloc l then some (l, false)
  else do
    let (l, r) ← ustreamAllocDefault stringData l
    if r < 0 then pure (l, false) else pure ({ l with dataTail := l.tail }, true)

/-- `ustream_prepare_buf`; `isR` says whether `l` is `&s->r`. -/
def ustreamPrepareBuf (stringData isR : Bool) (l : BufList) (len : Nat) :
    Option (BufList × Bool) :=
  match l.dataTail with
  | none => ustreamGrow stringData l
  | some buf => do
      let b ← l.heap buf
      let c ← if ustreamShouldMove l buf b.val len then
          ustreamFixupString (isR && stringData) b.val.move
        else pure b.val
      let l := l.put buf (some { b with val := c })
      -- some chunks available at the tail
      if c.tail ≠ c.size then pure (l, true)
      else match b.next with
        -- next buf available
        | some next => pure ({ l with dataTail := some next }, true)
        | none => ustreamGrow stringData l

/-! ## What a list holds -/

/-- The buffers of a list. -/
def BufList.bufs (l : BufList) : List (Nat × Chunk) := collect l.heap l.buffers.toNat l.head

/-- The buffers in front of and including `stop`. -/
def upTo (stop : Option Nat) : List (Nat × Chunk) → List (Nat × Chunk)
  | [] => []
  | x :: xs => if some x.1 = stop then [x] else x :: upTo stop xs

/-- The bytes in some buffers. -/
def contents (xs : List (Nat × Chunk)) : List UInt8 := xs.flatMap fun x => x.2.content

/-- The bytes in the buffers from `head` to `data_tail`. -/
def queued (l : BufList) : List UInt8 := contents (upTo l.dataTail l.bufs)

/-- How much the buffers of a list and those that may still be allocated can
hold, for a positive `max_buffers`. -/
def bound (l : BufList) : Nat :=
  (l.bufs.map fun x => x.2.size).sum + (l.maxBuffers - l.buffers).toNat * l.bufferLen

/-- Another `n` bytes do not make the list hold more than `INT_MAX`. -/
def Holds (l : BufList) (n : Nat) : Prop :=
  ((queued l).length + n : Int) ≤ INT_MAX ∨ (0 < l.maxBuffers ∧ (bound l : Int) ≤ INT_MAX)

instance (l : BufList) (n : Nat) : Decidable (Holds l n) := inferInstanceAs (Decidable (_ ∨ _))

/-- `ustream_prepare_buf` comes to the end, where another buffer is needed. -/
def mustGrow (l : BufList) (len : Nat) : Bool :=
  match l.dataTail with
  | none => true
  | some buf =>
      match l.heap buf with
      | none => false
      | some b => !ustreamShouldMove l buf b.val len && b.val.tail = b.val.size && b.next.isNone

/-- `ustream_prepare_buf` finds no room. -/
def noRoom (l : BufList) (len : Nat) : Bool := mustGrow l len && !ustreamCanAlloc l

end Libubox.Ustream
