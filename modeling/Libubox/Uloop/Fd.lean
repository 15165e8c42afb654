import Libubox.Lib.Machine
import Mathlib.Logic.Function.Basic

/-!
# Descriptors

`struct uloop_fd`, the event loop over `epoll`, and the stack of callbacks in
progress.  A descriptor structure is named by a number.

`curFds` is the part of the array `cur_fds` that is still to be handled,
`cur_fds[cur_fd]` to `cur_fds[cur_fd + cur_nfds - 1]`; while
`uloop_fetch_events` fills the array `cur_nfds` is zero, so there it is empty.
`fdStack` is the list at `fd_stack`; every entry lives in a frame of
`uloop_run_events`, whose variable `fd` is kept with it as `caller`.

The application runs between the steps: before `uloop_run`, in a callback of a
descriptor, and in the callbacks of timers and child processes, which
`uloop_run` makes between two calls of `uloop_run_events`.  `loops` holds the
depth of the stack at which each `uloop_run` in progress was called.
-/

namespace Libubox.Uloop.Descriptors

/-! ## The source -/

/-- `unsigned int`, where it holds flags or events. -/
abbrev Bits := BitVec 32

abbrev ULOOP_READ : Bits := 1
abbrev ULOOP_WRITE : Bits := 2
abbrev ULOOP_EDGE_TRIGGER : Bits := 4
abbrev ULOOP_EVENT_MASK : Bits := 3
abbrev ULOOP_EVENT_BUFFERED : Bits := 16
abbrev ULOOP_ERROR_CB : Bits := 64

abbrev EPOLLIN : Bits := 0x1
abbrev EPOLLOUT : Bits := 0x4
abbrev EPOLLERR : Bits := 0x8
abbrev EPOLLHUP : Bits := 0x10
abbrev EPOLLRDHUP : Bits := 0x2000

/-- `struct uloop_fd`; `cb` says whether a callback is set. -/
structure UloopFd where
  cb : Bool
  eof : Bool
  error : Bool
  registered : Bool
  flags : BitVec 8

/-- A flag of `fd->flags`. -/
def UloopFd.has (u : UloopFd) (flag : Bits) : Prop := u.flags.setWidth 32 &&& flag ≠ 0

instance (u : UloopFd) (flag : Bits) : Decidable (u.has flag) :=
  inferInstanceAs (Decidable (_ ≠ _))

/-- `struct uloop_fd_event`. -/
structure FdEvent where
  fd : Option Nat
  events : Bits
  deriving DecidableEq

/-- `struct uloop_fd_stack` in a frame of `uloop_run_events` for `caller`. -/
structure Frame where
  fd : Option Nat
  events : Bits
  caller : Nat
  deriving DecidableEq

/-- `struct epoll_event` as `epoll_wait` stores it. -/
structure EpollEvent where
  ptr : Option Nat
  events : Bits
  deriving DecidableEq

/-- The descriptors, what is registered with `epoll`, and the variables of the
event loop. -/
structure Loop where
  fd : Nat → UloopFd
  polled : Nat → Bool
  curFds : List FdEvent
  fdStack : List Frame
  loops : List Nat
  cancelled : Bool

/-- The structure of one descriptor is changed. -/
def Loop.modify (s : Loop) (fd : Nat) (f : UloopFd → UloopFd) : Loop :=
  { s with fd := Function.update s.fd fd (f (s.fd fd)) }

/-- `register_poll`; `ok` is whether `epoll_ctl` succeeds. -/
def registerPoll (s : Loop) (fd : Nat) (flags : Bits) (ok : Bool) : Loop × Int :=
  let s := s.modify fd fun u => { u with flags := flags.setWidth 8 }
  if ok then ({ s with polled := Function.update s.polled fd true }, 0) else (s, -1)

/-- What `uloop_fd_stack_event` does to the entry it finds: it loses its
descriptor (`none` for a negative `events`) or takes the events. -/
def Frame.mark (events : Option Bits) (cur : Frame) : Frame :=
  match events with
  | none => { cur with fd := none }
  | some ev => { cur with events := cur.events ||| (ev ||| ULOOP_EVENT_BUFFERED) }

/-- The loop of `uloop_fd_stack_event`: the innermost entry of `fd` is marked;
`none` when there is no entry of `fd`. -/
def stackEvent (fd : Nat) (events : Option Bits) : List Frame → Option (List Frame)
  | [] => none
  | cur :: rest =>
      if cur.fd = some fd then some (cur.mark events :: rest)
      else (stackEvent fd events rest).map (cur :: ·)

/-- `uloop_fd_stack_event`. -/
def uloopFdStackEvent (s : Loop) (fd : Nat) (events : Option Bits) : Loop × Bool :=
  if (s.fd fd).has ULOOP_EDGE_TRIGGER then
    match stackEvent fd events s.fdStack with
    | some fdStack => ({ s with fdStack }, true)
    | none => (s, false)
  else (s, false)

/-- An entry of `cur_fds` that `uloop_fd_delete` has gone over. -/
def FdEvent.drop (fd : Nat) (c : FdEvent) : FdEvent :=
  if c.fd = some fd then { c with fd := none } else c

/-- `uloop_fd_delete`.  The result of `epoll_ctl` is only returned. -/
def uloopFdDelete (s : Loop) (fd : Nat) : Loop :=
  let s := { s with curFds := s.curFds.map (FdEvent.drop fd) }
  if (s.fd fd).registered then
    let s := s.modify fd fun u => { u with registered := false }
    let s := (uloopFdStackEvent s fd none).1
    let s := s.modify fd fun u => { u with flags := 0 }
    { s with polled := Function.update s.polled fd false }
  else s

/-- `uloop_fd_add`, without the call of `fcntl`. -/
def uloopFdAdd (s : Loop) (fd : Nat) (flags : Bits) (ok : Bool) : Loop :=
  if flags &&& (ULOOP_READ ||| ULOOP_WRITE) = 0 then uloopFdDelete s fd
  else
    let r := registerPoll s fd flags ok
    if r.2 < 0 then r.1
    else r.1.modify fd fun u => { u with registered := true, eof := false, error := false }

/-- The READ and WRITE bits an entry of `epoll_wait` stands for. -/
def EpollEvent.bits (e : EpollEvent) : Bits :=
  (if e.events &&& EPOLLIN ≠ 0 then ULOOP_READ else 0) |||
    (if e.events &&& EPOLLOUT ≠ 0 then ULOOP_WRITE else 0)

/-- An entry says that the descriptor has failed or was hung up. -/
def EpollEvent.Failed (e : EpollEvent) : Prop := e.events &&& (EPOLLERR ||| EPOLLHUP) ≠ 0

/-- An entry says anything the loop knows. -/
def EpollEvent.Known (e : EpollEvent) : Prop :=
  e.events &&& (EPOLLRDHUP ||| EPOLLIN ||| EPOLLOUT ||| EPOLLERR ||| EPOLLHUP) ≠ 0

instance (e : EpollEvent) : Decidable e.Failed := inferInstanceAs (Decidable (_ ≠ _))
instance (e : EpollEvent) : Decidable e.Known := inferInstanceAs (Decidable (_ ≠ _))

/-- An error is noted, and deletes a descriptor without `ULOOP_ERROR_CB`. -/
def fetchError (s : Loop) (e : EpollEvent) (u : Nat) : Loop × List Nat :=
  if e.Failed then
    let s := s.modify u fun d => { d with error := true }
    if (s.fd u).has ULOOP_ERROR_CB then (s, []) else (uloopFdDelete s u, [u])
  else (s, [])

/-- The body of the loop of `uloop_fetch_events`: the entry stored in `cur_fds`
and the descriptor deleted. -/
def fetchOne (s : Loop) (e : EpollEvent) : Loop × FdEvent × List Nat :=
  match e.ptr with
  | none => (s, ⟨none, 0⟩, [])
  | some u =>
      let r := fetchError s e u
      if ¬e.Known then (r.1, ⟨none, 0⟩, r.2)
      else
        (if e.events &&& EPOLLRDHUP ≠ 0 then r.1.modify u fun d => { d with eof := true } else r.1,
          ⟨some u, e.bits⟩, r.2)

/-- The loop of `uloop_fetch_events` over what `epoll_wait` has returned: the
entries and the descriptors deleted. -/
def fetchLoop : Loop → List EpollEvent → Loop × List FdEvent × List Nat
  | s, [] => (s, [], [])
  | s, e :: es =>
      let r := fetchOne s e
      let q := fetchLoop r.1 es
      (q.1, r.2.1 :: q.2.1, r.2.2 ++ q.2.2)

/-- A call of a callback: the descriptor and the events. -/
abbrev CallbackCall := Nat × Bits

/-- The loop of `uloop_run_events` over `cur_fds` up to the first call of a
callback. -/
def runEventsLoop : Loop → List FdEvent → Loop × Option CallbackCall
  | s, [] => ({ s with curFds := [] }, none)
  | s, cur :: rest =>
      match cur.fd with
      | none => runEventsLoop s rest
      | some fd =>
          if (s.fd fd).cb then
            let r := uloopFdStackEvent s fd (some cur.events)
            if r.2 then runEventsLoop r.1 rest
            else
              ({ r.1 with
                  curFds := rest
                  fdStack := { fd := some fd, events := 0, caller := fd } :: r.1.fdStack },
                some (fd, cur.events))
          else runEventsLoop s rest

/-- `uloop_run_events` up to the first call of a callback, with what
`epoll_wait` returns if it is called; the descriptors deleted while fetching. -/
def uloopRunEvents (s : Loop) (es : List EpollEvent) : Loop × List Nat × Option CallbackCall :=
  if s.curFds = [] then
    let r := fetchLoop s es
    let q := runEventsLoop r.1 r.2.1
    (q.1, r.2.2, q.2)
  else
    let q := runEventsLoop s s.curFds
    (q.1, [], q.2)

/-- The callback of the innermost frame `f` returns: it is called again with
the events buffered in the meantime, or the frame is popped. -/
def callbackReturns (s : Loop) (f : Frame) (rest : List Frame) : Loop × Option CallbackCall :=
  let events := f.events &&& ULOOP_EVENT_MASK
  if f.fd.isSome ∧ events ≠ 0 then
    ({ s with fdStack := { f with events := 0 } :: rest }, some (f.caller, events))
  else ({ s with fdStack := rest }, none)

/-! ## The machine -/

/-- What can happen next: a call of the application, a turn of the innermost
`uloop_run`, or the return of the innermost callback. -/
inductive Action where
  | fdAdd (fd : Nat) (flags : Bits) (ok : Bool)
  | fdDelete (fd : Nat)
  | run
  | setCancelled (value : Bool)
  | turn (es : List EpollEvent)
  | callbackReturns
  deriving DecidableEq

/-- What a step shows. -/
inductive Event where
  | added (fd : Nat)
  | deleted (fd : Nat)
  | events (dropped : List Nat) (call : Option CallbackCall)
  | silent
  deriving DecidableEq

/-- `epoll_wait` reports registered descriptors, at most `ULOOP_MAX_EVENTS`. -/
def Loop.CanFetch (s : Loop) (es : List EpollEvent) : Prop :=
  es.length ≤ 10 ∧ ∀ e ∈ es, ∀ u ∈ e.ptr, s.polled u = true

instance (s : Loop) (es : List EpollEvent) : Decidable (s.CanFetch es) :=
  inferInstanceAs (Decidable (_ ∧ _))

/-- The innermost `uloop_run` goes on: it returns, or it runs events. -/
def runTurn (s : Loop) (outer : List Nat) (es : List EpollEvent) : Option (Loop × Event) :=
  if s.cancelled then some ({ s with loops := outer }, .silent)
  else if s.CanFetch es then
    let r := uloopRunEvents s es
    some (r.1, .events r.2.1 r.2.2)
  else none

/-- One step; `none` where the action is not possible. -/
def step (s : Loop) : Action → Option (Loop × Event)
  | .fdAdd fd flags ok =>
      some (uloopFdAdd s fd flags ok,
        if flags &&& (ULOOP_READ ||| ULOOP_WRITE) = 0 then .deleted fd else .added fd)
  | .fdDelete fd => some (uloopFdDelete s fd, .deleted fd)
  | .run => some ({ s with loops := s.fdStack.length :: s.loops, cancelled := false }, .silent)
  | .setCancelled value => some ({ s with cancelled := value }, .silent)
  | .turn es =>
      match s.loops with
      | [] => none
      | depth :: outer => if depth = s.fdStack.length then runTurn s outer es else none
  | .callbackReturns =>
      match s.fdStack with
      | [] => none
      | f :: rest =>
          if ∀ depth ∈ s.loops.head?, depth ≤ rest.length then
            let r := Descriptors.callbackReturns s f rest
            some (r.1, .events [] r.2)
          else none

/-- No descriptor is registered and no loop runs. -/
def initial (cb : Nat → Bool) : Loop :=
  { fd := fun u =>
      { cb := cb u, eof := false, error := false, registered := false, flags := 0 }
    polled := fun _ => false
    curFds := []
    fdStack := []
    loops := []
    cancelled := false }

/-! ## Frame conditions -/

section

variable (s : Loop) (fd : Nat) (f : UloopFd → UloopFd)

@[simp] theorem modify_polled : (s.modify fd f).polled = s.polled := rfl
@[simp] theorem modify_curFds : (s.modify fd f).curFds = s.curFds := rfl
@[simp] theorem modify_fdStack : (s.modify fd f).fdStack = s.fdStack := rfl

theorem modify_fd (u : Nat) :
    (s.modify fd f).fd u = if u = fd then f (s.fd fd) else s.fd u := by
  by_cases hu : u = fd <;> simp [Loop.modify, hu]

end

/-- The innermost entry of `fd`, and only it, is marked. -/
theorem stackEvent_eq_some {fd : Nat} {events : Option Bits} {fs fs' : List Frame}
    (h : stackEvent fd events fs = some fs') :
    ∃ pre f post, fs = pre ++ f :: post ∧ fs' = pre ++ f.mark events :: post ∧
      (∀ g ∈ pre, g.fd ≠ some fd) ∧ f.fd = some fd := by
  induction fs generalizing fs' with
  | nil => cases h
  | cons cur rest ih =>
      unfold stackEvent at h
      split at h
      · next hfd =>
          cases h
          exact ⟨[], cur, rest, rfl, rfl, by simp, hfd⟩
      · next hfd =>
          obtain ⟨rest', hrest, rfl⟩ := Option.map_eq_some_iff.mp h
          obtain ⟨pre, f, post, rfl, rfl, hpre, hf⟩ := ih hrest
          refine ⟨cur :: pre, f, post, rfl, rfl, ?_, hf⟩
          intro g hg
          rcases List.mem_cons.mp hg with rfl | hg
          · exact hfd
          · exact hpre g hg

theorem stackEvent_eq_none {fd : Nat} {events : Option Bits} {fs : List Frame}
    (h : stackEvent fd events fs = none) : ∀ f ∈ fs, f.fd ≠ some fd := by
  induction fs with
  | nil => simp
  | cons cur rest ih =>
      unfold stackEvent at h
      split at h
      · cases h
      · next hfd =>
          intro f hf
          rcases List.mem_cons.mp hf with rfl | hf
          · exact hfd
          · exact ih (Option.map_eq_none_iff.mp h) f hf

/-- `uloop_fd_stack_event` marks the innermost entry of an edge-triggered
descriptor, or does nothing. -/
theorem fdStackEvent_cases (s : Loop) (fd : Nat) (events : Option Bits) :
    (uloopFdStackEvent s fd events = (s, false) ∧
        ((s.fd fd).has ULOOP_EDGE_TRIGGER → ∀ f ∈ s.fdStack, f.fd ≠ some fd)) ∨
      ∃ pre f post, s.fdStack = pre ++ f :: post ∧ (s.fd fd).has ULOOP_EDGE_TRIGGER ∧
        (∀ g ∈ pre, g.fd ≠ some fd) ∧ f.fd = some fd ∧
        uloopFdStackEvent s fd events
          = ({ s with fdStack := pre ++ f.mark events :: post }, true) := by
  unfold uloopFdStackEvent
  split
  · next hedge =>
      split
      · next fdStack hstack =>
          obtain ⟨pre, f, post, hfs, rfl, hpre, hfd⟩ := stackEvent_eq_some hstack
          exact .inr ⟨pre, f, post, hfs, hedge, hpre, hfd, rfl⟩
      · next hstack => exact .inl ⟨rfl, fun _ => stackEvent_eq_none hstack⟩
  · next hedge => exact .inl ⟨rfl, fun h => absurd h hedge⟩

/-- Every entry of the stack afterwards was there before, marked or not. -/
theorem mem_fdStackEvent {s : Loop} {fd : Nat} {events : Option Bits} {g : Frame}
    (hg : g ∈ (uloopFdStackEvent s fd events).1.fdStack) :
    g ∈ s.fdStack ∨ ∃ f ∈ s.fdStack, f.fd = some fd ∧ g = f.mark events := by
  rcases fdStackEvent_cases s fd events with ⟨heq, -⟩ | ⟨pre, f, post, hfs, -, -, hfd, heq⟩
  · rw [heq] at hg
    exact .inl hg
  · rw [heq] at hg
    rw [hfs]
    rcases List.mem_append.mp hg with hg | hg
    · exact .inl (List.mem_append_left _ hg)
    · rcases List.mem_cons.mp hg with rfl | hg
      · exact .inr ⟨f, by simp, hfd, rfl⟩
      · exact .inl (by simp [hg])

/-- What `uloop_fd_stack_event` leaves alone. -/
theorem fdStackEvent_eq (s : Loop) (fd : Nat) (events : Option Bits) :
    (uloopFdStackEvent s fd events).1
      = { s with fdStack := (uloopFdStackEvent s fd events).1.fdStack } := by
  unfold uloopFdStackEvent
  split
  · split <;> rfl
  · rfl

section

variable (s : Loop) (fd : Nat)

theorem delete_of_not_registered (h : (s.fd fd).registered = false) :
    uloopFdDelete s fd = { s with curFds := s.curFds.map (FdEvent.drop fd) } := by
  unfold uloopFdDelete
  simp [h]

theorem delete_of_registered (h : (s.fd fd).registered = true) :
    uloopFdDelete s fd =
      { s with
          curFds := s.curFds.map (FdEvent.drop fd)
          fd := Function.update s.fd fd { s.fd fd with registered := false, flags := 0 }
          fdStack := (uloopFdStackEvent s fd none).1.fdStack
          polled := Function.update s.polled fd false } := by
  have hstack : ∀ cs, (uloopFdStackEvent
      { s.modify fd fun u => { u with registered := false } with curFds := cs } fd none).1.fdStack
      = (uloopFdStackEvent s fd none).1.fdStack := by
    intro cs
    unfold uloopFdStackEvent
    have hflags : ((s.modify fd fun u => { u with registered := false }).fd fd).has
        ULOOP_EDGE_TRIGGER ↔ (s.fd fd).has ULOOP_EDGE_TRIGGER := by
      rw [modify_fd, if_pos rfl]
      rfl
    by_cases hedge : (s.fd fd).has ULOOP_EDGE_TRIGGER
    · rw [if_pos hedge, if_pos (hflags.mpr hedge)]
      simp only [modify_fdStack]
      split <;> rfl
    · rw [if_neg hedge, if_neg (mt hflags.mp hedge)]
      rfl
  unfold uloopFdDelete
  simp only [h, if_true]
  rw [fdStackEvent_eq]
  simp only [Loop.modify, Function.update_idem, Function.update_self]
  congr 1
  exact hstack _

theorem delete_curFds : (uloopFdDelete s fd).curFds = s.curFds.map (FdEvent.drop fd) := by
  cases h : (s.fd fd).registered with
  | false => rw [delete_of_not_registered s fd h]
  | true => rw [delete_of_registered s fd h]

theorem delete_fd_of_ne {u : Nat} (hu : u ≠ fd) : (uloopFdDelete s fd).fd u = s.fd u := by
  cases h : (s.fd fd).registered with
  | false => rw [delete_of_not_registered s fd h]
  | true => simp [delete_of_registered s fd h, hu]

theorem delete_cb (u : Nat) : ((uloopFdDelete s fd).fd u).cb = (s.fd u).cb := by
  by_cases hu : u = fd
  · subst u
    cases h : (s.fd fd).registered with
    | false => rw [delete_of_not_registered s fd h]
    | true => simp [delete_of_registered s fd h]
  · rw [delete_fd_of_ne s fd hu]

theorem delete_polled_of_ne {u : Nat} (hu : u ≠ fd) :
    (uloopFdDelete s fd).polled u = s.polled u := by
  cases h : (s.fd fd).registered with
  | false => rw [delete_of_not_registered s fd h]
  | true => simp [delete_of_registered s fd h, hu]

/-- Only a registered, edge-triggered descriptor loses an entry of the stack,
and only the innermost. -/
theorem delete_fdStack_cases :
    ((uloopFdDelete s fd).fdStack = s.fdStack ∧
        ((s.fd fd).registered = true → (s.fd fd).has ULOOP_EDGE_TRIGGER →
          ∀ f ∈ s.fdStack, f.fd ≠ some fd)) ∨
      ∃ pre f post, s.fdStack = pre ++ f :: post ∧ (∀ g ∈ pre, g.fd ≠ some fd) ∧
        f.fd = some fd ∧ (uloopFdDelete s fd).fdStack = pre ++ f.mark none :: post := by
  cases h : (s.fd fd).registered with
  | false =>
      rw [delete_of_not_registered s fd h]
      exact .inl ⟨rfl, fun hreg => by cases hreg⟩
  | true =>
      rw [delete_of_registered s fd h]
      rcases fdStackEvent_cases s fd none with ⟨heq, hnone⟩ | ⟨pre, f, post, hfs, -, hpre, hfd, heq⟩
      · rw [heq]
        exact .inl ⟨rfl, fun _ => hnone⟩
      · rw [heq]
        exact .inr ⟨pre, f, post, hfs, hpre, hfd, rfl⟩

theorem mem_delete_fdStack {g : Frame} (hg : g ∈ (uloopFdDelete s fd).fdStack) :
    g ∈ s.fdStack ∨ ∃ f ∈ s.fdStack, f.fd = some fd ∧ g = f.mark none := by
  rcases delete_fdStack_cases s fd with ⟨heq, -⟩ | ⟨pre, f, post, hfs, -, hfd, heq⟩
  · rw [heq] at hg
    exact .inl hg
  · rw [heq] at hg
    rw [hfs]
    rcases List.mem_append.mp hg with hg | hg
    · exact .inl (List.mem_append_left _ hg)
    · rcases List.mem_cons.mp hg with rfl | hg
      · exact .inr ⟨f, by simp, hfd, rfl⟩
      · exact .inl (by simp [hg])

variable (flags : Bits) (ok : Bool)

/-- `uloop_fd_add` with READ or WRITE touches neither the batch nor the stack. -/
theorem add_same (h : flags &&& (ULOOP_READ ||| ULOOP_WRITE) ≠ 0) :
    (uloopFdAdd s fd flags ok).curFds = s.curFds ∧
      (uloopFdAdd s fd flags ok).fdStack = s.fdStack := by
  unfold uloopFdAdd registerPoll
  rw [if_neg h]
  cases ok <;> exact ⟨rfl, rfl⟩

theorem add_of_ne (h : flags &&& (ULOOP_READ ||| ULOOP_WRITE) ≠ 0) {u : Nat} (hu : u ≠ fd) :
    (uloopFdAdd s fd flags ok).fd u = s.fd u ∧
      (uloopFdAdd s fd flags ok).polled u = s.polled u := by
  unfold uloopFdAdd registerPoll
  rw [if_neg h]
  cases ok <;> simp [Loop.modify, hu]

theorem add_self (h : flags &&& (ULOOP_READ ||| ULOOP_WRITE) ≠ 0) :
    ((uloopFdAdd s fd flags ok).fd fd).cb = (s.fd fd).cb ∧
      ((uloopFdAdd s fd flags ok).fd fd).flags = flags.setWidth 8 ∧
      ((uloopFdAdd s fd flags ok).polled fd = true →
        ((uloopFdAdd s fd flags ok).fd fd).registered = true ∨
          s.polled fd = true ∧
            ((uloopFdAdd s fd flags ok).fd fd).registered = (s.fd fd).registered) := by
  unfold uloopFdAdd registerPoll
  rw [if_neg h]
  cases ok with
  | false =>
      refine ⟨by simp [Loop.modify], by simp [Loop.modify], fun hpolled => .inr ⟨hpolled, ?_⟩⟩
      simp [Loop.modify]
  | true => simp [Loop.modify]

end

section

variable (inv : Loop → Prop)
  (hmodify : ∀ s u f, (∀ d, (f d).cb = d.cb ∧ (f d).flags = d.flags ∧
    (f d).registered = d.registered) → inv s → inv (s.modify u f))
  (hdelete : ∀ s u, ¬(s.fd u).has ULOOP_ERROR_CB → inv s → inv (uloopFdDelete s u))

include hmodify hdelete

theorem fetchError_invariant {s : Loop} (h : inv s) (e : EpollEvent) (u : Nat) :
    inv (fetchError s e u).1 := by
  have hset := hmodify s u (fun d => { d with error := true }) (fun d => ⟨rfl, rfl, rfl⟩) h
  unfold fetchError
  by_cases hfailed : e.Failed
  · rw [if_pos hfailed]
    simp only
    split
    · exact hset
    · next hcb => exact hdelete _ u hcb hset
  · rw [if_neg hfailed]
    exact h

/-- A property kept by a note of an error or an end of file and by the deletion
of a descriptor without `ULOOP_ERROR_CB` is kept while fetching. -/
theorem fetchLoop_invariant {s : Loop} (h : inv s) (es : List EpollEvent) :
    inv (fetchLoop s es).1 := by
  induction es generalizing s with
  | nil => exact h
  | cons e es ih =>
      apply ih
      unfold fetchOne
      split
      · exact h
      · next u _ =>
          have herror := fetchError_invariant inv hmodify hdelete h e u
          simp only
          split
          · exact herror
          · simp only
            split
            · exact hmodify _ u (fun d => { d with eof := true }) (fun d => ⟨rfl, rfl, rfl⟩) herror
            · exact herror

end

/-- Every entry stored stands for one that `epoll_wait` returned. -/
theorem mem_fetchLoop {s : Loop} {es : List EpollEvent} {c : FdEvent} {u : Nat}
    (hc : c ∈ (fetchLoop s es).2.1) (hu : c.fd = some u) :
    ∃ e ∈ es, e.ptr = some u ∧ c.events = e.bits := by
  induction es generalizing s with
  | nil => cases hc
  | cons e es ih =>
      rcases List.mem_cons.mp hc with rfl | hc
      · refine ⟨e, List.mem_cons_self, ?_⟩
        unfold fetchOne at hu ⊢
        split at hu
        · cases hu
        · split at hu
          · cases hu
          · next hptr _ => simp_all
      · obtain ⟨e', he', hptr⟩ := ih hc
        exact ⟨e', List.mem_cons_of_mem _ he', hptr⟩

end Libubox.Uloop.Descriptors
