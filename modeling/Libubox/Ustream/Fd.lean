import Libubox.Uloop.Fd
import Libubox.Ustream.Events

/-!
# Descriptor streams

`ustream-fd.c`: the implementation of a stream over a descriptor that the event
loop watches.  What the system will return from `write` and `read` is part of the
state.  `uloop_fd_add` succeeds.

`__ustream_fd_poll` is interrupted by the callbacks of the application, so it is
on the stack while they run.  Its result, whether data came in, is left out.
-/

namespace Libubox.Ustream

open Chain
open Uloop.Descriptors (UloopFd Bits ULOOP_READ ULOOP_WRITE ULOOP_EDGE_TRIGGER ULOOP_ERROR_CB)

/-! ## The source -/

/-- `uloop_fd_delete` on the structure of a descriptor. -/
def uloopFdDelete (u : UloopFd) : UloopFd :=
  if u.registered then { u with registered := false, flags := 0 } else u

/-- `uloop_fd_add` on the structure of a descriptor. -/
def uloopFdAdd (u : UloopFd) (flags : Bits) : UloopFd :=
  if flags &&& (ULOOP_READ ||| ULOOP_WRITE) = 0 then uloopFdDelete u
  else { u with flags := flags.setWidth 8, registered := true, eof := false, error := false }

/-- What a call of `write` of the system returns. -/
inductive SysWrite where
  | written (n : Nat)
  | eintr
  | again
  | error

/-- What a call of `read` of the system returns. -/
inductive SysRead where
  | data (bytes : List UInt8)
  | eintr
  | again
  | error

/-- `struct ustream_fd` but for its stream, and what the system will return: to each
call of `ustream_fd_write` the results of its calls of `write`, and to the calls of
`read`.  Behind the last there is `EAGAIN`. -/
structure UstreamFd where
  fd : UloopFd
  writes : List (List SysWrite)
  reads : List SysRead

/-- The flags `ustream_fd_set_uloop` comes to. -/
def setUloopFlags (readBlocked : BitVec 8) (eof write : Bool) : Bits :=
  ULOOP_EDGE_TRIGGER ||| ULOOP_ERROR_CB |||
    (if readBlocked = 0 && !eof then ULOOP_READ else 0) ||| (if write then ULOOP_WRITE else 0)

/-- `ustream_fd_set_uloop`. -/
def ustreamFdSetUloop (s : Stream UstreamFd) (write : Bool) : UstreamFd :=
  let write := write || (s.w.head.isSome && s.w.dataBytes ≠ 0 && !s.writeError)
  { s.impl with fd := uloopFdAdd s.impl.fd (setUloopFlags s.readBlocked s.eof write) }

/-- The stream behind `ustream_fd_set_uloop(s, false)`. -/
def Stream.setUloop (s : Stream UstreamFd) : Stream UstreamFd :=
  { s with impl := ustreamFdSetUloop s false }

/-- The loop of `ustream_fd_write`: the result, and what is left of `buflen`. -/
def fdWriteLoop : List SysWrite → Nat → Nat → Int × Nat
  | _, 0, ret => (ret, 0)
  | [], buflen, ret | .again :: _, buflen, ret => (ret, buflen)
  | .eintr :: calls, buflen, ret => fdWriteLoop calls buflen ret
  | .error :: _, _, _ => (-1, 0)
  | .written n :: calls, buflen, ret =>
      fdWriteLoop calls (buflen - min n buflen) (ret + min n buflen)

/-- `ustream_fd_write`.  When it calls `ustream_fd_set_uloop(s, true)` the buffers do
not matter. -/
def ustreamFdWrite (readBlocked : BitVec 8) (eof : Bool) : WriteCb UstreamFd :=
  fun sf buf _ =>
    let r := fdWriteLoop (sf.writes.headD []) buf.length 0
    let fd := if r.2 = 0 then sf.fd else uloopFdAdd sf.fd (setUloopFlags readBlocked eof true)
    ({ sf with fd, writes := if buf = [] then sf.writes else sf.writes.tail }, r.1)

/-- The callbacks that `ustream_fd_init` sets. -/
def fdImpl : Impl UstreamFd where
  write := ustreamFdWrite
  setReadBlocked := fun s => ustreamFdSetUloop s false

/-- `__ustream_fd_poll` while a callback runs. -/
inductive FdFrame where
  /-- In the loop of `ustream_fd_read_pending`. -/
  | reading (events : Bits)
  /-- Behind `ustream_write_pending`. -/
  | written
  deriving DecidableEq

namespace Live

/-- The end of `__ustream_fd_poll`: the descriptor has failed. -/
def pollError (s : Live UstreamFd FdFrame) : Live UstreamFd FdFrame :=
  if s.stream.impl.fd.error && !s.stream.writeError then
    let stream := { ustreamStateChange s.stream with writeError := true }
    { s with stream := stream.setUloop }
  else s

/-- `__ustream_fd_poll` behind `ustream_write_pending`. -/
def pollWritten (s : Live UstreamFd FdFrame) : Live UstreamFd FdFrame :=
  if s.ret then pollError { s with stream := s.stream.setUloop } else pollError s

/-- `__ustream_fd_poll` behind `ustream_fd_read_pending`. -/
def pollWrite (s : Live UstreamFd FdFrame) (events : Bits) : Option (Outcome UstreamFd FdFrame) :=
  if events &&& ULOOP_WRITE ≠ 0 then (s.push (.impl .written)).writePending fdImpl
  else some (pollError s, none)

/-- The end of file in `ustream_fd_read_pending`. -/
def readEof (s : Stream UstreamFd) : Stream UstreamFd :=
  let s := if s.eof then s else ustreamStateChange s
  { s with eof := true : Stream UstreamFd }.setUloop

/-- `ustream_fd_read_pending`, one round of its loop, and what follows it. -/
def readPending (s : Live UstreamFd FdFrame) (events : Bits) : Option (Outcome UstreamFd FdFrame) :=
  if s.stream.readBlocked ≠ 0 then s.pollWrite events
  else do
    let (stream, buf, buflen) ← ustreamReserve s.stream 1
    let s := { s with stream := fdImpl.blocked s.stream stream }
    match buf with
    | none => s.pollWrite events
    | some _ =>
        let call := s.stream.impl.reads.head?
        let s := { s with
          stream := { s.stream with impl := { s.stream.impl with reads := s.stream.impl.reads.tail } } }
        match call with
        | some .eintr => some (s.push (.impl (.reading events)), none)
        | none | some .again => s.pollWrite events
        | some .error => pollWrite { s with stream := readEof s.stream } events
        | some (.data bytes) =>
            let bytes := bytes.take buflen
            if bytes = [] then pollWrite { s with stream := readEof s.stream } events
            else (s.push (.impl (.reading events))).fillRead bytes

/-- `__ustream_fd_poll`. -/
def fdPoll (s : Live UstreamFd FdFrame) (events : Bits) : Option (Outcome UstreamFd FdFrame) :=
  if events &&& ULOOP_READ ≠ 0 then s.readPending events else s.pollWrite events

end Live

/-- The structure of a descriptor behind `uloop_fd_add` of the event loop. -/
theorem fd_uloopFdAdd (s : Uloop.Descriptors.Loop) (fd : Nat) (flags : Bits) :
    (Uloop.Descriptors.uloopFdAdd s fd flags true).fd fd = uloopFdAdd (s.fd fd) flags := by
  unfold Uloop.Descriptors.uloopFdAdd uloopFdAdd
  split
  · unfold uloopFdDelete
    cases h : (s.fd fd).registered with
    | false => simp [Uloop.Descriptors.delete_of_not_registered s fd h]
    | true => simp [Uloop.Descriptors.delete_of_registered s fd h]
  · simp [Uloop.Descriptors.registerPoll, Uloop.Descriptors.Loop.modify]

/-! ## The machine -/

/-- What an application calls on a descriptor stream. -/
inductive FdCall where
  | write (data : Data) (more : Bool)
  | printf (text : Data)
  | writePending
  | read (buflen : Nat)
  | consume (len : Nat)
  | setReadBlocked (set : Bool)
  | stateChange
  | settingsR (v : Settings)
  | settingsW (v : Settings)

def FdCall.toCall : FdCall → Call
  | .write data more => .write data more
  | .printf text => .printf text
  | .writePending => .writePending
  | .read buflen => .read buflen
  | .consume len => .consume len
  | .setReadBlocked set => .setReadBlocked set
  | .stateChange => .stateChange
  | .settingsR v => .settingsR v
  | .settingsW v => .settingsW v

inductive FdAction where
  | call (c : FdCall)
  /-- `ustream_poll`, with the callback `ustream_fd_poll`. -/
  | poll
  /-- `ustream_uloop_cb`, for events of the descriptor. -/
  | event (events : Bits)
  /-- The event loop notes that the descriptor has failed. -/
  | failed
  /-- The timer `state_change` fires. -/
  | stateChange
  | ret
  | resume

namespace Live

def fdTurn (s : Live UstreamFd FdFrame) : FdAction → Option (Outcome UstreamFd FdFrame)
  | .call c => s.call fdImpl c.toCall
  | .poll => s.fdPoll (ULOOP_READ ||| ULOOP_WRITE)
  | .event events => s.fdPoll events
  | .failed =>
      let impl := { s.stream.impl with fd := { s.stream.impl.fd with error := true } }
      some ({ s with stream := { s.stream with impl } }, none)
  | .stateChange => s.stateChangeCb
  | .ret | .resume => none

def fdStep (s : Live UstreamFd FdFrame) (a : FdAction) : Option (Outcome UstreamFd FdFrame) :=
  match s.stack, a with
  | .user _ :: rest, .ret => some ({ s with stack := rest }, none)
  | .user _ :: _, a => s.fdTurn a
  | [], a => s.fdTurn a
  | .notified wr :: rest, .resume => some (Live.notified { s with stack := rest } wr, none)
  | .impl (.reading events) :: rest, .resume => readPending { s with stack := rest } events
  | .impl .written :: rest, .resume => some (pollWritten { s with stack := rest }, none)
  | _ :: _, _ => none

/-- Behind `ustream_fd_init`. -/
def fdInit (s : Stream UstreamFd) : Live UstreamFd FdFrame :=
  { stream := { ustreamInitDefaults s with setReadBlocked := true }.setUloop, ret := false
    stack := [] }

end Live

end Libubox.Ustream
