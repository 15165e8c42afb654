import Libubox.Lib.Walks

/-!
# Run queues

`runqueue.c` on one queue, with every callback a place where anything of the
interface may be called.  The stack holds the functions that have not returned.
A callback is on top of it while it runs; then, and when the stack is empty, the
user has the turn.  Otherwise the function on top goes on, one call at a time.

The two task lists are safe lists, whose elements and walks are those of
`Walks.State`.  Times are left out: a timer that is pending may fire at any
moment.  A null pointer that is followed makes a step `none`.
-/

namespace Libubox.Runqueue

/-- The lists `tasks_active` and `tasks_inactive`. -/
inductive Side where
  | active
  | inactive
  deriving DecidableEq

def sides : List Side := [.active, .inactive]

/-- Which callbacks of a `struct runqueue_task_type` are set. -/
structure TaskType where
  run : Bool
  cancel : Bool
  kill : Bool
  deriving DecidableEq

/-- The fields of a task that its owner sets. -/
structure Config where
  type : Option TaskType
  complete : Bool
  runTimeout : Int
  cancelTimeout : Int
  cancelType : Int
  deriving DecidableEq

/-- `struct runqueue_process`: a task, with `timeout.pending` and `proc.pending`. -/
structure Task where
  config : Config
  timeout : Bool
  queued : Bool
  running : Bool
  cancelled : Bool
  proc : Bool
  deriving DecidableEq

/-- `timeout.cb` of a queue. -/
inductive TimeoutCb where
  | startNext
  | emptyCb
  deriving DecidableEq

/-- The fields of `struct runqueue` other than its lists. -/
structure Queue where
  timeout : Bool
  cb : Option TimeoutCb
  runningTasks : Int
  maxRunningTasks : Int
  stopped : Bool
  empty : Bool
  emptyCb : Bool
  deriving DecidableEq

/-- The callbacks. -/
inductive Callback (τ : Type*) where
  | run (t : τ)
  | cancel (t : τ) (type : Int)
  | complete (t : τ)
  | kill (t : τ)
  | empty
  deriving DecidableEq

/-- A function that has not returned. -/
inductive Frame (τ : Type*) where
  /-- A callback, in which the user has the turn. -/
  | user (cb : Callback τ)
  /-- `__runqueue_start_next`, behind `run`. -/
  | startNext
  /-- `runqueue_task_complete`, behind `complete`. -/
  | complete
  /-- `runqueue_task_kill`, behind `runqueue_task_complete`. -/
  | kill (t : τ) (running : Bool)
  /-- `runqueue_task_kill`, behind `kill`. -/
  | killed
  /-- `safe_list_for_each`, behind `__runqueue_cancel`. -/
  | forEach
  /-- `runqueue_cancel`, behind `runqueue_cancel_pending`. -/
  | cancelActive
  /-- `runqueue_kill`, behind `runqueue_task_kill`. -/
  | killLoop
  /-- `runqueue_kill`, behind `runqueue_cancel_pending`. -/
  | killEnd
  deriving DecidableEq

structure State (τ : Type*) where
  lists : Walks.State Side τ
  q : Queue
  task : τ → Task
  stack : List (Frame τ)

variable {τ : Type*}

/-- A state and the callback that was entered, if one was. -/
abbrev Result (τ : Type*) := Option (State τ × Option (Callback τ))

namespace State

def push (s : State τ) (f : Frame τ) : State τ := { s with stack := f :: s.stack }

/-- The function returns. -/
def ret (s : State τ) : Result τ := some (s, none)

/-- A callback is called. -/
def enter (s : State τ) (cb : Callback τ) : Result τ := some (s.push (.user cb), some cb)

def active (s : State τ) : List τ := s.lists.lists .active

def inactive (s : State τ) : List τ := s.lists.lists .inactive

variable [DecidableEq τ]

def setTask (s : State τ) (t : τ) (v : Task) : State τ :=
  { s with task := Function.update s.task t v }

/-! ## The functions -/

/-- `runqueue_start_next`. -/
def runqueueStartNext (s : State τ) : State τ :=
  if s.q.empty then s else { s with q := { s.q with cb := some .startNext, timeout := true } }

/-- `__runqueue_start_next` behind its loop. -/
def startNextEnd (s : State τ) : State τ :=
  if s.q.empty = false ∧ s.active = [] ∧ s.inactive = [] then
    if s.q.emptyCb then
      { s with q := { s.q with empty := true, cb := some .emptyCb, timeout := true } }
    else { s with q := { s.q with empty := true } }
  else s

/-- A task goes from `tasks_inactive` to `tasks_active`. -/
def activate (s : State τ) (t : τ) : State τ :=
  let v := s.task t
  ({ s with
      lists := (s.lists.del t).add t .active
      q := { s.q with runningTasks := s.q.runningTasks + 1 } } : State τ).setTask t
    { v with running := true, timeout := v.timeout || v.config.runTimeout ≠ 0 }

/-- One round of the loop of `__runqueue_start_next`. -/
def startNextLoop (s : State τ) : Result τ :=
  if s.q.stopped then s.startNextEnd.ret
  else
    match s.inactive with
    | [] => s.startNextEnd.ret
    | t :: _ =>
        if s.q.maxRunningTasks ≠ 0 ∧ s.q.maxRunningTasks ≤ s.q.runningTasks then s.startNextEnd.ret
        else
          match (s.task t).config.type with
          | some ⟨true, _, _⟩ => ((s.activate t).push .startNext).enter (.run t)
          | _ => none

/-- `runqueue_task_complete` behind its check, up to the callback. -/
def dequeue (s : State τ) (t : τ) : State τ :=
  let v := s.task t
  let q :=
    if v.running then { s.q with runningTasks := s.q.runningTasks - 1 } else s.q
  ({ s with lists := s.lists.del t, q } : State τ).setTask t
    { v with timeout := false, queued := false, running := false, cancelled := false }

/-- `runqueue_task_complete`. -/
def runqueueTaskComplete (s : State τ) (t : τ) : Result τ :=
  if (s.task t).queued then
    if (s.task t).config.complete then ((s.dequeue t).push .complete).enter (.complete t)
    else (s.dequeue t).runqueueStartNext.ret
  else s.ret

/-- `runqueue_task_cancel`. -/
def runqueueTaskCancel (s : State τ) (t : τ) (type : Int) : Result τ :=
  let v := s.task t
  if v.queued then
    if v.running then
      let s := s.setTask t
        { v with cancelled := true, timeout := v.timeout || v.config.cancelTimeout ≠ 0 }
      match v.config.type with
      | none => none
      | some ty => if ty.cancel then s.enter (.cancel t type) else s.ret
    else s.runqueueTaskComplete t
  else s.ret

/-- `_runqueue_task_add` behind its checks, up to `runqueue_start_next`. -/
def enqueue (s : State τ) (t : τ) (running first : Bool) : State τ :=
  let side := if running then Side.active else .inactive
  let runningTasks := if running then s.q.runningTasks + 1 else s.q.runningTasks
  ({ s with
      lists := if first then s.lists.addFirst t side else s.lists.add t side
      q := { s.q with runningTasks, empty := false } } : State τ).setTask t
    { s.task t with cancelled := false, queued := true, running }

/-- `_runqueue_task_add`. -/
def runqueueTaskAdd (s : State τ) (t : τ) (running first : Bool) : Result τ :=
  if (s.task t).queued then s.ret
  else
    match (s.task t).config.type with
    | none => none
    | some ty =>
        if ty.run = false ∧ running = false then s.ret
        else (s.enqueue t running first).runqueueStartNext.ret

/-- `runqueue_task_kill` up to the call of `runqueue_task_complete`, and that
call. -/
def runqueueTaskKill (s : State τ) (t : τ) : Result τ :=
  if (s.task t).queued then (s.push (.kill t (s.task t).running)).runqueueTaskComplete t
  else s.ret

/-- `runqueue_task_kill` behind `runqueue_task_complete`. -/
def taskKillRest (s : State τ) (t : τ) (running : Bool) : Result τ :=
  if running then
    match (s.task t).config.type with
    | none => none
    | some ty =>
        if ty.kill then (s.push .killed).enter (.kill t) else s.runqueueStartNext.ret
  else s.runqueueStartNext.ret

/-- `safe_list_for_each` has come to an element, on which `__runqueue_cancel` is
called, or it returns. -/
def forEachRound (s : State τ) : Walks.State Side τ × Walks.Event τ → Result τ
  | (lists, .visit _ t) =>
      (({ s with lists } : State τ).push .forEach).runqueueTaskCancel t 0
  | (lists, _) => ret { s with lists }

/-- `runqueue_cancel_active` and `runqueue_cancel_pending`. -/
def runqueueCancelSide (s : State τ) (side : Side) : Result τ :=
  (s.lists.step (.start side)).bind s.forEachRound

def runqueueCancelActive (s : State τ) : Result τ := s.runqueueCancelSide .active

def runqueueCancelPending (s : State τ) : Result τ := s.runqueueCancelSide .inactive

/-- `runqueue_cancel`. -/
def runqueueCancel (s : State τ) : Result τ := (s.push .cancelActive).runqueueCancelPending

/-- `runqueue_kill`, one round of its loop and what follows it. -/
def runqueueKill (s : State τ) : Result τ :=
  match s.active with
  | [] => (s.push .killEnd).runqueueCancelPending
  | t :: _ => (s.push .killLoop).runqueueTaskKill t

/-- `runqueue_stop`. -/
def runqueueStop (s : State τ) : State τ := { s with q := { s.q with stopped := true } }

/-- `runqueue_resume`. -/
def runqueueResume (s : State τ) : State τ :=
  ({ s with q := { s.q with stopped := false } } : State τ).runqueueStartNext

/-- `runqueue_process_add`. -/
def runqueueProcessAdd (s : State τ) (t : τ) : Result τ :=
  let v := s.task t
  if v.proc then s.ret
  else
    let type := v.config.type.getD ⟨false, true, true⟩
    let s := s.setTask t { v with config := { v.config with type := some type }, proc := true }
    if v.running then s.ret else s.runqueueTaskAdd t true false

end State

/-! ## The machine -/

/-- What the user does when he has the turn, a timer or a process event of the
loop, or `resume`: the function on top of the stack goes on. -/
inductive Action (τ : Type*) where
  | resume
  /-- The callback returns. -/
  | ret
  | taskAdd (t : τ) (running : Bool)
  | taskAddFirst (t : τ) (running : Bool)
  | taskComplete (t : τ)
  | taskCancel (t : τ) (type : Int)
  | taskKill (t : τ)
  | processAdd (t : τ)
  /-- `uloop_process_delete`, as in `runqueue_process_kill_cb`. -/
  | processDelete (t : τ)
  | cancelActive
  | cancelPending
  | cancel
  | kill
  | stop
  | goOn
  /-- The user sets the fields of a task, or of the queue. -/
  | configure (t : τ) (config : Config)
  | setMax (max : Int)
  | setEmptyCb (set : Bool)
  /-- The timer of the queue, of a task, or the exit of a process. -/
  | timeout
  | taskTimeout (t : τ)
  | processExit (t : τ)
  deriving DecidableEq

namespace State

variable [DecidableEq τ]

/-- A timer or a process that is pending fires, and is not pending then. -/
def timeout (s : State τ) : Result τ :=
  if s.q.timeout then
    let s := { s with q := { s.q with timeout := false } }
    match s.q.cb with
    | some .startNext => s.startNextLoop
    | some .emptyCb => if s.q.emptyCb then s.enter .empty else none
    | none => s.ret
  else none

/-- `__runqueue_task_timeout`. -/
def taskTimeout (s : State τ) (t : τ) : Result τ :=
  let v := s.task t
  if v.timeout then
    let s := s.setTask t { v with timeout := false }
    if v.cancelled then s.runqueueTaskKill t else s.runqueueTaskCancel t v.config.cancelType
  else none

/-- `__runqueue_proc_cb`. -/
def processExit (s : State τ) (t : τ) : Result τ :=
  let v := s.task t
  if v.proc then (s.setTask t { v with proc := false }).runqueueTaskComplete t else none

/-- What the user has called, or what the loop calls. -/
def call (s : State τ) : Action τ → Result τ
  | .resume | .ret => none
  | .taskAdd t running => s.runqueueTaskAdd t running false
  | .taskAddFirst t running => s.runqueueTaskAdd t running true
  | .taskComplete t => s.runqueueTaskComplete t
  | .taskCancel t type => s.runqueueTaskCancel t type
  | .taskKill t => s.runqueueTaskKill t
  | .processAdd t => s.runqueueProcessAdd t
  | .processDelete t => (s.setTask t { s.task t with proc := false }).ret
  | .cancelActive => s.runqueueCancelActive
  | .cancelPending => s.runqueueCancelPending
  | .cancel => s.runqueueCancel
  | .kill => s.runqueueKill
  | .stop => s.runqueueStop.ret
  | .goOn => s.runqueueResume.ret
  | .configure t config => (s.setTask t { s.task t with config }).ret
  | .setMax max => ret { s with q := { s.q with maxRunningTasks := max } }
  | .setEmptyCb set => ret { s with q := { s.q with emptyCb := set } }
  | .timeout => s.timeout
  | .taskTimeout t => s.taskTimeout t
  | .processExit t => s.processExit t

/-- A function goes on when what it has called has returned. -/
def goOn (s : State τ) : Frame τ → Result τ
  | .user _ => none
  | .startNext => s.startNextLoop
  | .complete => s.runqueueStartNext.ret
  | .kill t running => s.taskKillRest t running
  | .killed => s.runqueueStartNext.ret
  | .forEach => (s.lists.step .next).bind s.forEachRound
  | .cancelActive => s.runqueueCancelActive
  | .killLoop => s.runqueueKill
  | .killEnd => ret { s with q := { s.q with timeout := false } }

/-- A step: the user has the turn when the stack is empty or has a callback on
top. -/
def step (s : State τ) (a : Action τ) : Result τ :=
  match s.stack, a with
  | .user _ :: rest, .ret => ret { s with stack := rest }
  | .user _ :: _, a => s.call a
  | [], a => s.call a
  | f :: rest, .resume => ({ s with stack := rest } : State τ).goOn f
  | _ :: _, _ => none

/-- Behind `runqueue_init`, with tasks that were never used. -/
def init (maxRunningTasks : Int) (emptyCb : Bool) (config : τ → Config) : State τ :=
  { lists := ⟨fun _ => [], []⟩
    q := ⟨false, none, 0, maxRunningTasks, false, false, emptyCb⟩
    task := fun t => ⟨config t, false, false, false, false, false⟩
    stack := [] }

end State

end Libubox.Runqueue
