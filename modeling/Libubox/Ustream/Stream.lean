import Libubox.Ustream.Buffer

/-!
# Streams

`struct ustream` and the functions an application and an implementation of a
stream call.  The callback `write` is a parameter: it has a state of its own,
gets the bytes and the argument `more`, and returns an `int`.  The callbacks
`notify_read`, `notify_write` and `notify_state` are told of what was done and
are left out.

The loops take fuel; no call that is made on a well-formed stream runs out of
it.
-/

namespace Libubox.Ustream

open Chain

/-! ## The source -/

abbrev READ_BLOCKED_USER : BitVec 8 := 1
abbrev READ_BLOCKED_FULL : BitVec 8 := 2

/-- `struct ustream`.  `setReadBlocked` says whether that callback is set,
`stateChange` whether the timer `state_change` was started; `impl` is the state
of the implementation and `sent` what it has accepted so far. -/
structure Stream (σ : Type) where
  r : BufList
  w : BufList
  setReadBlocked : Bool
  stringData : Bool
  writeError : Bool
  eof : Bool
  readBlocked : BitVec 8
  stateChange : Bool
  impl : σ
  sent : List UInt8

/-- The callback `write` of an implementation. -/
abbrev WriteCb (σ : Type) := σ → List UInt8 → Bool → σ × Int

variable {σ : Type}

/-- The call `s->write(s, buf, len, more)`. -/
def Stream.write (cb : WriteCb σ) (s : Stream σ) (buf : List UInt8) (more : Bool) :
    Stream σ × Int :=
  let r := cb s.impl buf more
  ({ s with impl := r.1, sent := s.sent ++ buf.take r.2.toNat }, r.2)

/-- `__ustream_set_read_blocked`. -/
def setReadBlockedTo (s : Stream σ) (val : BitVec 8) : Option (Stream σ) :=
  let changed := (s.readBlocked != 0) != (val != 0)
  if changed && !s.setReadBlocked then none else some { s with readBlocked := val }

/-- The loop of `ustream_consume`. -/
def consumeLoop : Nat → BufList → Option Nat → Nat → Option BufList
  | 0, _, _, _ => none
  | fuel + 1, l, buf, len => do
      let buf ← buf
      let b ← l.heap buf
      let bufLen := b.val.tail - b.val.data
      if len < bufLen then
        let c ← b.val.advance len
        pure (l.put buf (some { b with val := c }))
      else
        let l ← ustreamFreeBuf l buf
        if len - bufLen = 0 then pure l else consumeLoop fuel l b.next (len - bufLen)

/-- `ustream_consume`. -/
def ustreamConsume (s : Stream σ) (len : Nat) : Option (Stream σ) :=
  if len = 0 then some s
  else do
    let dataBytes ← addInt s.r.dataBytes (-len)
    if dataBytes < 0 then none
    else
      let r ← consumeLoop (len + 1) (s.r.setDataBytes dataBytes) s.r.head len
      setReadBlockedTo { s with r } (s.readBlocked &&& ~~~READ_BLOCKED_FULL)

/-- `ustream_reserve`: the buffer into whose `tail` the pointer goes, and
`*maxlen`. -/
def ustreamReserve (s : Stream σ) (len : Nat) : Option (Stream σ × Option Nat × Nat) := do
  let (r, ok) ← ustreamPrepareBuf s.stringData true s.r len
  let s := { s with r }
  if ok then
    let buf ← s.r.dataTail
    let b ← s.r.heap buf
    pure (s, some buf, b.val.size - b.val.tail)
  else
    let s ← setReadBlockedTo s (s.readBlocked ||| READ_BLOCKED_FULL)
    pure (s, none, 0)

/-- The loop of `ustream_fill_read`. -/
def fillLoop (stringData : Bool) : Nat → BufList → Option Nat → Nat → Option BufList
  | 0, _, _, _ => none
  | fuel + 1, l, buf, len => do
      let buf ← buf
      let b ← l.heap buf
      let maxlen := min len (b.val.size - b.val.tail)
      let c ← b.val.extend maxlen
      let c ← ustreamFixupString stringData c
      let l := { l.put buf (some { b with val := c }) with dataTail := some buf }
      if len - maxlen = 0 then pure l else fillLoop stringData fuel l b.next (len - maxlen)

/-- `ustream_fill_read`. -/
def ustreamFillRead (s : Stream σ) (len : Nat) : Option (Stream σ) := do
  let dataBytes ← addInt s.r.dataBytes len
  let r := s.r.setDataBytes dataBytes
  let r ← fillLoop s.stringData (r.buffers.toNat + 1) r r.dataTail len
  pure { s with r }

/-- `ustream_get_read_buf`: the bytes at the pointer, and `*buflen`. -/
def ustreamGetReadBuf (s : Stream σ) : Option (Option (List UInt8) × Nat) :=
  match s.r.head with
  | none => some (none, 0)
  | some buf => do
      let b ← s.r.heap buf
      let len := b.val.tail - b.val.data
      pure (if 0 < len then some b.val.content else none, len)

/-- The loop of `ustream_read`. -/
def readLoop : Nat → Stream σ → Nat → List UInt8 → Option (Stream σ × List UInt8)
  | 0, _, _, _ => none
  | fuel + 1, s, buflen, buf => do
      match ← ustreamGetReadBuf s with
      | (none, _) => pure (s, buf)
      | (some chunk, chunkLen) =>
          let chunkLen := min chunkLen (buflen - buf.length)
          let s ← ustreamConsume s chunkLen
          let buf := buf ++ chunk.take chunkLen
          if buf.length < buflen then readLoop fuel s buflen buf else pure (s, buf)

/-- `ustream_read`: what it stores in the buffer it is given; the result is the
number of these bytes. -/
def ustreamRead (s : Stream σ) (buflen : Nat) : Option (Stream σ × List UInt8) :=
  readLoop (buflen + 1) s buflen []

/-- `ustream_write_error`. -/
def ustreamWriteError (s : Stream σ) : Stream σ :=
  { s with stateChange := s.stateChange || !s.writeError, writeError := true }

/-- The loop of `ustream_write_pending`. -/
def writePendingLoop (cb : WriteCb σ) :
    Nat → Stream σ → Option Nat → Int → Option (Stream σ × Int)
  | 0, _, _, _ => none
  | fuel + 1, s, buf, wr => do
      match buf with
      | none => pure (s, wr)
      | some buf =>
          if s.w.dataBytes = 0 then pure (s, wr)
          else
            let b ← s.w.heap buf
            let maxlen : Int := (b.val.tail - b.val.data : Nat)
            let (s, len) := s.write cb b.val.content b.next.isSome
            if len < 0 then pure (ustreamWriteError s, wr)
            else if len = 0 then pure (s, wr)
            else
              let wr ← addInt wr len
              let w := s.w.setDataBytes (← addInt s.w.dataBytes (-len))
              if len < maxlen then
                let c ← b.val.advance len.toNat
                pure ({ s with w := w.put buf (some { b with val := c }) }, wr)
              else
                let w ← ustreamFreeBuf w buf
                writePendingLoop cb fuel { s with w } b.next wr

/-- `ustream_write_pending`. -/
def ustreamWritePending (cb : WriteCb σ) (s : Stream σ) : Option (Stream σ × Bool) :=
  if s.writeError then some (s, false)
  else do
    let (s, wr) ← writePendingLoop cb (s.w.dataBytes.toNat + 1) s s.w.head 0
    let s := if s.eof && wr ≠ 0 && s.w.dataBytes = 0 then { s with stateChange := true } else s
    pure (s, s.w.dataBytes = 0)

/-- `ustream_write_buffered`, the loop over the list `w`. -/
def ustreamWriteBuffered (stringData : Bool) :
    Nat → BufList → List UInt8 → Int → Option (BufList × Int)
  | 0, _, _, _ => none
  | fuel + 1, l, data, wr =>
      if data = [] then some (l, wr)
      else do
        let (l, ok) ← ustreamPrepareBuf stringData false l data.length
        if !ok then pure (l, wr)
        else
          let buf ← l.dataTail
          let b ← l.heap buf
          let maxlen := min (b.val.size - b.val.tail) data.length
          let c ← b.val.store (data.take maxlen)
          let c ← c.extend maxlen
          let wr ← addInt wr maxlen
          let dataBytes ← addInt l.dataBytes maxlen
          let l := (l.put buf (some { b with val := c })).setDataBytes dataBytes
          ustreamWriteBuffered stringData fuel l (data.drop maxlen) wr

/-- `ustream_write_buffered(s, data, len, wr)`. -/
def writeBuffered (s : Stream σ) (data : List UInt8) (wr : Int) : Option (Stream σ × Int) := do
  let (w, wr) ← ustreamWriteBuffered s.stringData (data.length + 1) s.w data wr
  pure ({ s with w }, wr)

/-- `ustream_write`. -/
def ustreamWrite (cb : WriteCb σ) (s : Stream σ) (data : List UInt8) (more : Bool) :
    Option (Stream σ × Int) :=
  if s.writeError then some (s, 0)
  else if s.w.dataBytes = 0 then
    let (s, wr) := s.write cb data more
    if wr = data.length then some (s, wr)
    else if wr < 0 then some (ustreamWriteError s, wr)
    else writeBuffered s (data.drop wr.toNat) wr
  else writeBuffered s data 0

/-- The end of `ustream_vprintf`, when the formatted text is `text`: it is printed
into the buffer at `data_tail`. -/
def vprintfQueued (s : Stream σ) (text : List UInt8) : Option (Stream σ × Int) := do
  let (w, ok) ← ustreamPrepareBuf s.stringData false s.w 1
  if !ok then pure ({ s with w }, 0)
  else
    let buf ← w.dataTail
    let b ← w.heap buf
    let buflen := b.val.size - b.val.tail
    -- `vsnprintf` stores what fits in front of the terminator
    let c ← b.val.store (text.take (buflen - 1) ++ [0])
    let wr := if text.length ≥ buflen then buflen - 1 else text.length
    let c ← c.extend wr
    let dataBytes ← addInt w.dataBytes wr
    let w := (w.put buf (some { b with val := c })).setDataBytes dataBytes
    if text.length < buflen then pure ({ s with w }, (wr : Int))
    else
      let _ ← addInt text.length 1
      writeBuffered { s with w } (text.drop wr) wr

abbrev MAX_STACK_BUFLEN : Nat := 256

/-- `ustream_vprintf`, when the formatted text is `text`. -/
def ustreamVprintf (cb : WriteCb σ) (s : Stream σ) (text : List UInt8) :
    Option (Stream σ × Int) :=
  if s.writeError then some (s, 0)
  else if s.w.dataBytes = 0 then
    if text.length < MAX_STACK_BUFLEN then
      let (s, wr) := s.write cb text false
      if wr < 0 then some (ustreamWriteError s, wr)
      else if wr = text.length then some (s, wr)
      else writeBuffered s (text.drop wr.toNat) wr
    else do
      let _ ← addInt text.length 1
      ustreamWrite cb s text false
  else vprintfQueued s text

/-- `ustream_printf`. -/
def ustreamPrintf (cb : WriteCb σ) (s : Stream σ) (text : List UInt8) :
    Option (Stream σ × Int) :=
  if s.writeError then some (s, 0) else ustreamVprintf cb s text

/-- `DEFAULT_SET`. -/
def defaultSet (x default : Int) : Int := if x = 0 then default else x

/-- `ustream_init_defaults`. -/
def ustreamInitDefaults (s : Stream σ) : Stream σ :=
  { s with
    r :=
      { s.r with
        minBuffers := defaultSet s.r.minBuffers 1
        maxBuffers := defaultSet s.r.maxBuffers 1
        bufferLen := if s.r.bufferLen = 0 then 4096 else s.r.bufferLen
        buffers := 0, dataBytes := 0 }
    w :=
      { s.w with
        minBuffers := defaultSet s.w.minBuffers 2
        maxBuffers := defaultSet s.w.maxBuffers (-1)
        bufferLen := if s.w.bufferLen = 0 then 256 else s.w.bufferLen
        buffers := 0, dataBytes := 0 }
    writeError := false
    eof := false
    readBlocked := 0 }

/-- A zeroed structure in which settings may have been made. -/
structure Zeroed (s : Stream σ) : Prop where
  r : s.r.head = none ∧ s.r.dataTail = none ∧ s.r.tail = none
  w : s.w.head = none ∧ s.w.dataTail = none ∧ s.w.tail = none
  sent : s.sent = []

/-- A structure of zeroes but for `buffer_len`. -/
def zeroes (bufferLen : Nat) : Stream Unit :=
  let l : BufList :=
    { head := none, dataTail := none, tail := none, dataBytes := 0, minBuffers := 0
      maxBuffers := 0, bufferLen, buffers := 0, heap := fun _ => none, fresh := 0
      garbage := fun _ _ => 0 }
  { r := l, w := l, setReadBlocked := false, stringData := false, writeError := false, eof := false
    readBlocked := 0, stateChange := false, impl := (), sent := [] }

theorem zeroes_zeroed (bufferLen : Nat) : Zeroed (zeroes bufferLen) := ⟨⟨rfl, rfl, rfl⟩, ⟨rfl, rfl, rfl⟩, rfl⟩

end Libubox.Ustream
