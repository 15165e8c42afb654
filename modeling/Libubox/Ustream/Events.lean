import Libubox.Ustream.Input
import Libubox.Ustream.Output

/-!
# Streams and callbacks

A stream on which anything is called in any order, also from the callbacks
`notify_read`, `notify_write` and `notify_state`.  The stack holds the functions
that have not returned.  While a callback is on top of it, and while it is
empty, the application and the implementation have the turn.  Otherwise the
function on top goes on.

The callbacks `write` and `set_read_blocked` change nothing but the state of the
implementation.  An implementation may have functions of its own on the stack.
-/

namespace Libubox.Ustream

open Chain

/-! ## The source -/

/-- The loop of `ustream_free_buffers`. -/
def freeLoop : Nat → Heap Nat Chunk → Option Nat → Option (Heap Nat Chunk)
  | _, heap, none => some heap
  | 0, _, some _ => none
  | fuel + 1, heap, some buf => do
      let b ← heap buf
      freeLoop fuel (Function.update heap buf none) b.next

/-- `ustream_free_buffers`. -/
def ustreamFreeBuffers (l : BufList) : Option BufList := do
  let heap ← freeLoop l.fresh l.heap l.head
  pure { l with head := none, tail := none, dataTail := none, heap }

variable {σ φ : Type}

/-- `ustream_set_read_blocked`. -/
def ustreamSetReadBlocked (s : Stream σ) (set : Bool) : Option (Stream σ) :=
  let val := s.readBlocked &&& ~~~READ_BLOCKED_USER
  setReadBlockedTo s (if set then val ||| READ_BLOCKED_USER else val)

/-- `ustream_state_change`. -/
def ustreamStateChange (s : Stream σ) : Stream σ := { s with stateChange := true }

/-- The callbacks of an implementation.  `write` may look at `read_blocked` and
`eof`, which no function changes that calls it. -/
structure Impl (σ : Type) where
  write : BitVec 8 → Bool → WriteCb σ
  setReadBlocked : Stream σ → σ

/-- `set_read_blocked` has been called if `read_blocked` has become zero or is not
zero any more. -/
def Impl.blocked (I : Impl σ) (s s' : Stream σ) : Stream σ :=
  if (s.readBlocked != 0) != (s'.readBlocked != 0) then
    { s' with impl := I.setReadBlocked s' }
  else s'

/-- The callback `write` of a stream. -/
def Impl.writeCb (I : Impl σ) (s : Stream σ) : WriteCb σ := I.write s.readBlocked s.eof

/-- The callbacks of an application. -/
inductive Notify where
  | read (bytesNew : Nat)
  | write (bytes : Int)
  | state
  deriving DecidableEq

/-- A function that has not returned. -/
inductive Frame (φ : Type) where
  /-- A callback, in which anything may be called. -/
  | user (cb : Notify)
  /-- `ustream_write_pending`, behind `notify_write`. -/
  | notified (wr : Int)
  /-- A function of the implementation. -/
  | impl (f : φ)
  deriving DecidableEq

/-- A stream, what the last function has returned if it is a `bool`, and the
functions that have not returned. -/
structure Live (σ φ : Type) where
  stream : Stream σ
  ret : Bool
  stack : List (Frame φ)

/-- A state and the callback that was entered, if one was. -/
abbrev Outcome (σ φ : Type) := Live σ φ × Option Notify

namespace Live

/-- The function has done its work on the stream and returns. -/
def done (s : Live σ φ) (stream : Stream σ) : Option (Outcome σ φ) := some ({ s with stream }, none)

def push (s : Live σ φ) (f : Frame φ) : Live σ φ := { s with stack := f :: s.stack }

/-- A callback is called. -/
def notify (s : Live σ φ) (cb : Notify) : Option (Outcome σ φ) := some (s.push (.user cb), some cb)

/-- `ustream_write_pending` up to `notify_write`. -/
def writePending (I : Impl σ) (s : Live σ φ) : Option (Outcome σ φ) :=
  if s.stream.writeError then some ({ s with ret := false }, none)
  else do
    let (stream, wr) ← writePendingLoop (I.writeCb s.stream) (s.stream.w.dataBytes.toNat + 1)
      s.stream s.stream.w.head 0
    (({ s with stream } : Live σ φ).push (.notified wr)).notify (.write wr)

/-- `ustream_write_pending` behind `notify_write`. -/
def notified (s : Live σ φ) (wr : Int) : Live σ φ :=
  let drained : Bool := s.stream.w.dataBytes = 0
  { s with
    stream := if s.stream.eof && wr ≠ 0 && drained then ustreamStateChange s.stream else s.stream
    ret := drained }

/-- `ustream_fill_read`, after the implementation has stored `data` at the `tail`
of the buffer at `data_tail`. -/
def fillRead (s : Live σ φ) (data : List UInt8) : Option (Outcome σ φ) := do
  let r ← storeAt s.stream.r s.stream.r.dataTail data
  let stream ← ustreamFillRead { s.stream with r } data.length
  ({ s with stream } : Live σ φ).notify (.read data.length)

/-- `ustream_state_change_cb`, when the timer `state_change` fires. -/
def stateChangeCb (s : Live σ φ) : Option (Outcome σ φ) :=
  if s.stream.stateChange then do
    let w ← if s.stream.writeError then ustreamFreeBuffers s.stream.w else pure s.stream.w
    notify { s with stream := { s.stream with stateChange := false, w } } .state
  else none

end Live

/-! ## The machine -/

/-- Three settings of a list. -/
structure Settings where
  bufferLen : { n : Nat // 0 < n }
  minBuffers : Int
  maxBuffers : Int

def BufList.set (l : BufList) (v : Settings) : BufList :=
  { l with bufferLen := v.bufferLen, minBuffers := v.minBuffers, maxBuffers := v.maxBuffers }

/-- What may be called, and the fields that may be set. -/
inductive Call where
  | write (data : Data) (more : Bool)
  | printf (text : Data)
  | writePending
  | read (buflen : Nat)
  | consume (len : Nat)
  | setReadBlocked (set : Bool)
  | reserve (len : Nat)
  | fillRead (data : List UInt8)
  | stateChange
  | setEof (eof : Bool)
  | setWriteError (writeError : Bool)
  | settingsR (v : Settings)
  | settingsW (v : Settings)

inductive Action where
  | call (c : Call)
  /-- The timer `state_change` fires. -/
  | stateChange
  /-- The callback returns. -/
  | ret
  /-- The function on top of the stack goes on. -/
  | resume

namespace Live

def call (I : Impl σ) (s : Live σ φ) : Call → Option (Outcome σ φ)
  | .write data more => do
      let (stream, _) ← ustreamWrite (I.writeCb s.stream) s.stream data more
      s.done stream
  | .printf text => do
      let (stream, _) ← ustreamPrintf (I.writeCb s.stream) s.stream text
      s.done stream
  | .writePending => s.writePending I
  | .read buflen => do
      let (stream, _) ← ustreamRead s.stream buflen
      s.done (I.blocked s.stream stream)
  | .consume len => do
      let stream ← ustreamConsume s.stream len
      s.done (I.blocked s.stream stream)
  | .setReadBlocked set => do
      let stream ← ustreamSetReadBlocked s.stream set
      s.done (I.blocked s.stream stream)
  | .reserve len => do
      let (stream, _) ← ustreamReserve s.stream len
      s.done (I.blocked s.stream stream)
  | .fillRead data => s.fillRead data
  | .stateChange => s.done (ustreamStateChange s.stream)
  | .setEof eof => s.done { s.stream with eof }
  | .setWriteError writeError => s.done { s.stream with writeError }
  | .settingsR v => s.done { s.stream with r := s.stream.r.set v }
  | .settingsW v => s.done { s.stream with w := s.stream.w.set v }

/-- What is called when the application and the implementation have the turn. -/
def turn (I : Impl σ) (s : Live σ φ) : Action → Option (Outcome σ φ)
  | .call c => s.call I c
  | .stateChange => s.stateChangeCb
  | .ret | .resume => none

def step (I : Impl σ) (s : Live σ φ) (a : Action) : Option (Outcome σ φ) :=
  match s.stack, a with
  | .user _ :: rest, .ret => some ({ s with stack := rest }, none)
  | .user _ :: _, a => s.turn I a
  | [], a => s.turn I a
  | .notified wr :: rest, .resume => some (notified { s with stack := rest } wr, none)
  | _ :: _, _ => none

/-- Behind `ustream_init_defaults`. -/
def init (s : Stream σ) : Live σ φ := { stream := ustreamInitDefaults s, ret := false, stack := [] }

end Live

end Libubox.Ustream
