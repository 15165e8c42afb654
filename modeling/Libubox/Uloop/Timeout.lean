import Libubox.Lib.Binary64
import Libubox.Lib.Machine

/-!
# Timers

`struct uloop_timeout`, the static list `timeouts` and the functions over it.
A timer is named by a number.  `uloop_process_timeouts` hands control to the
application whenever it calls a callback, and a callback may set and cancel
timers and, through a nested `uloop_run`, process timeouts again; so the loop
is cut into turns, and `calls` holds the argument of every call in progress,
innermost first.

The list is ordered by `tv_diff`, which counts whole milliseconds, is no order
relation and is narrowed to an `int`.  As long as no difference it takes is
cut (`NoWrap`), any two entries are in order up to that rounding (`Ordered`).
-/

namespace Libubox.Uloop

open Binary64

/-! ## The source -/

/-- `struct timeval`. -/
structure Timeval where
  sec : Int
  usec : Int
  deriving DecidableEq

/-- The difference in milliseconds before it is returned. -/
def msDiff (t1 t2 : Timeval) : Int :=
  (t1.sec - t2.sec) * 1000 + (t1.usec - t2.usec).tdiv 1000

/-- `tv_diff`: the result type is `int`. -/
def tvDiff (t1 t2 : Timeval) : Int := wrap32 (msDiff t1 t2)

/-- `struct uloop_timeout` without its links; `cb` says whether a callback is
set. -/
structure Timeout where
  pending : Bool
  cb : Bool
  time : Timeval

/-- The timers, the list `timeouts`, the calls of `uloop_process_timeouts` in
progress, and the last reading of the clock. -/
structure Timers where
  timer : Nat → Timeout
  timeouts : List Nat
  calls : List Timeval
  clock : Timeval

/-- `list_add_tail` in front of the first entry with a later deadline. -/
def Timers.addSorted (s : Timers) (t : Nat) : List Nat → List Nat
  | [] => [t]
  | tmp :: rest =>
      if 0 < tvDiff (s.timer tmp).time (s.timer t).time then t :: tmp :: rest
      else tmp :: s.addSorted t rest

/-- `uloop_timeout_add`. -/
def uloopTimeoutAdd (s : Timers) (t : Nat) : Timers × Int :=
  if (s.timer t).pending then (s, -1)
  else
    ({ s with
        timeouts := s.addSorted t s.timeouts
        timer := Function.update s.timer t { s.timer t with pending := true } }, 0)

/-- `uloop_timeout_cancel`. -/
def uloopTimeoutCancel (s : Timers) (t : Nat) : Timers × Int :=
  if (s.timer t).pending then
    ({ s with
        timeouts := s.timeouts.erase t
        timer := Function.update s.timer t { s.timer t with pending := false } }, 0)
  else (s, -1)

/-- The deadline `uloop_timeout_set` computes from the clock.  Only a sum of
more than a second is carried. -/
def deadline (now : Timeval) (msecs : Nat) : Timeval :=
  let sec := now.sec + msecs / 1000
  let usec := now.usec + msecs % 1000 * 1000
  if 1000000 < usec then ⟨sec + 1, usec - 1000000⟩ else ⟨sec, usec⟩

/-- `uloop_timeout_set` when the clock reads `now`. -/
def uloopTimeoutSet (s : Timers) (t msecs : Nat) (now : Timeval) : Timers × Int :=
  let s := (uloopTimeoutCancel s t).1
  uloopTimeoutAdd
    { s with timer := Function.update s.timer t { s.timer t with time := deadline now msecs } } t

/-- What can happen next: a call of the application, or the innermost
`uloop_process_timeouts` goes on after its callback has returned. -/
inductive Action where
  | set (t msecs : Nat) (now : Timeval)
  | cancel (t : Nat)
  | processTimeouts (now : Timeval)
  | turn
  deriving DecidableEq

/-- What a step shows: a timer was armed or cancelled, a call was entered, it
took a timer off the list and ran its callback if it has one, or it left. -/
inductive Event where
  | armed (t : Nat)
  | cancelled (t : Nat)
  | refused (t : Nat)
  | entered (now : Timeval)
  | expired (t : Nat) (ran : Bool)
  | left
  deriving DecidableEq

/-- A reading of `CLOCK_MONOTONIC`. -/
def Timeval.IsReading (now : Timeval) : Prop := 0 ≤ now.usec ∧ now.usec < 1000000

/-- A time in microseconds. -/
def Timeval.micros (t : Timeval) : Int := t.sec * 1000000 + t.usec

instance (now : Timeval) : Decidable now.IsReading := inferInstanceAs (Decidable (_ ∧ _))

/-- The clock may read `now` next. -/
def Timers.Reads (s : Timers) (now : Timeval) : Prop :=
  now.IsReading ∧ s.clock.micros ≤ now.micros

instance (s : Timers) (now : Timeval) : Decidable (s.Reads now) :=
  inferInstanceAs (Decidable (_ ∧ _))

/-- One turn of the loop of `uloop_process_timeouts(tv)`. -/
def uloopProcessTurn (s : Timers) (tv : Timeval) (calls : List Timeval) : Timers × Event :=
  match s.timeouts with
  | [] => ({ s with calls }, .left)
  | t :: _ =>
      if 0 < tvDiff (s.timer t).time tv then ({ s with calls }, .left)
      else ((uloopTimeoutCancel s t).1, .expired t (s.timer t).cb)

/-- One step; `none` where the action is not possible. -/
def step (s : Timers) : Action → Option (Timers × Event)
  | .set t msecs now =>
      if msecs < 2 ^ 31 ∧ s.Reads now then
        some ({ (uloopTimeoutSet s t msecs now).1 with clock := now }, .armed t)
      else none
  | .cancel t =>
      some ((uloopTimeoutCancel s t).1,
        if (s.timer t).pending then .cancelled t else .refused t)
  | .processTimeouts now =>
      if s.Reads now then some ({ s with calls := now :: s.calls, clock := now }, .entered now)
      else none
  | .turn =>
      match s.calls with
      | [] => none
      | tv :: calls => some (uloopProcessTurn s tv calls)

/-- Before the first call: no timer is pending. -/
def initial (cb : Nat → Bool) (clock : Timeval) : Timers :=
  { timer := fun t => { pending := false, cb := cb t, time := ⟨0, 0⟩ }
    timeouts := []
    calls := []
    clock }

/-! ## Differences of times -/

/-- The field `usec` of a deadline. -/
def Timeval.InRange (t : Timeval) : Prop := 0 ≤ t.usec ∧ t.usec ≤ 1000000

theorem Timeval.IsReading.inRange {t : Timeval} (h : t.IsReading) : t.InRange :=
  ⟨h.1, le_of_lt h.2⟩

/-- A difference that an `int` holds. -/
def Fits (d : Int) : Prop := -2 ^ 31 ≤ d ∧ d < 2 ^ 31

theorem tvDiff_eq {a b : Timeval} (h : Fits (msDiff a b)) : tvDiff a b = msDiff a b := by
  apply Int.bmod_eq_of_le <;> (unfold Fits at h; omega)

theorem tdiv_bounds (x : Int) :
    (0 ≤ x → 1000 * x.tdiv 1000 ≤ x ∧ x < 1000 * x.tdiv 1000 + 1000) ∧
      (x ≤ 0 → x ≤ 1000 * x.tdiv 1000 ∧ 1000 * x.tdiv 1000 < x + 1000) := by
  constructor
  · intro h
    rw [Int.tdiv_eq_ediv_of_nonneg h]
    omega
  · intro h
    obtain ⟨y, rfl⟩ : ∃ y, x = -y := ⟨-x, by omega⟩
    rw [Int.neg_tdiv, Int.tdiv_eq_ediv_of_nonneg (by omega)]
    omega

/-- The rounding is towards zero, so it is symmetric. -/
theorem msDiff_comm (a b : Timeval) : msDiff b a = -msDiff a b := by
  have hneg : b.usec - a.usec = -(a.usec - b.usec) := by omega
  rw [msDiff, msDiff, hneg, Int.neg_tdiv]
  omega

theorem micros_lt_of_msDiff_pos {a b : Timeval} (h : 0 < msDiff a b) :
    b.micros < a.micros := by
  have hdiv := tdiv_bounds (a.usec - b.usec)
  unfold msDiff at h
  unfold Timeval.micros
  omega

/-- An entry that does not look later is less than a millisecond later. -/
theorem micros_lt_of_msDiff_nonpos {a b : Timeval} (h : msDiff a b ≤ 0) :
    a.micros < b.micros + 1000 := by
  have hdiv := tdiv_bounds (a.usec - b.usec)
  unfold msDiff at h
  unfold Timeval.micros
  omega

/-- An earlier time is seen at a greater distance. -/
theorem msDiff_le_of_micros_lt {x t e : Timeval} (ht : t.InRange) (he : e.InRange)
    (h : t.micros < e.micros) : msDiff x e ≤ msDiff x t := by
  have hte := tdiv_bounds (x.usec - t.usec)
  have hee := tdiv_bounds (x.usec - e.usec)
  unfold Timeval.InRange at ht he
  unfold Timeval.micros at h
  unfold msDiff
  omega

/-- The same up to equality where the later time is a reading of the clock. -/
theorem msDiff_le_of_micros_le {x t now : Timeval} (ht : t.InRange) (hnow : now.IsReading)
    (h : t.micros ≤ now.micros) : msDiff x now ≤ msDiff x t := by
  have hte := tdiv_bounds (x.usec - t.usec)
  have hee := tdiv_bounds (x.usec - now.usec)
  unfold Timeval.InRange at ht
  unfold Timeval.IsReading at hnow
  unfold Timeval.micros at h
  unfold msDiff
  omega

theorem deadline_inRange {now : Timeval} (h : now.IsReading) (msecs : Nat) :
    (deadline now msecs).InRange := by
  unfold Timeval.IsReading at h
  unfold deadline Timeval.InRange
  simp only
  split <;> constructor <;> simp only <;> omega

/-- The deadline is the reading of the clock and `msecs` milliseconds. -/
theorem micros_deadline (now : Timeval) (msecs : Nat) :
    (deadline now msecs).micros = now.micros + 1000 * msecs := by
  unfold deadline Timeval.micros
  simp only
  split <;> simp only <;> omega

end Libubox.Uloop
