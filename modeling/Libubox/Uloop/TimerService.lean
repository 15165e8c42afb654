import Libubox.Uloop.Timeout

/-!
# The timer service

What a run of timer calls promises (`TimerService`): a due timer is taken off
the list, once for each time it was armed, and no timer is taken a millisecond
early.

The invariant is `Ordered`: any two entries of the list are in order up to the
rounding of `tv_diff`.  An insertion keeps it although `tv_diff` is no order
relation, because an earlier time is seen at a greater distance
(`msDiff_le_of_micros_lt`).  All of it needs that no difference is cut to an
`int` (`NoWrap`): behind a timer that is overdue by more than `2 ^ 31`
milliseconds less the new timeout, a new timer is put in front.
-/

namespace Libubox.Uloop

open Binary64 Machine

/-! ## The promise -/

/-- The timer is pending with a deadline at or before `now`. -/
def Timers.Due (s : Timers) (now : Timeval) (t : Nat) : Prop :=
  (s.timer t).pending = true ∧ (s.timer t).time.micros ≤ now.micros

/-- The event ends what the timer was armed for, or arms it again. -/
def Event.Concerns (t : Nat) : Event → Prop
  | .armed u => u = t
  | .cancelled u => u = t
  | .expired u _ => u = t
  | _ => False

/-- The event takes a timer off the list to run it. -/
def Event.expires : Event → Bool
  | .expired _ _ => true
  | _ => false

/-- A run from a state in which `calls` are in progress stays inside them. -/
def Inside (calls : List Timeval) : Timers → List Action → Prop :=
  Along step fun s _ => calls <:+ s.calls

/-- A call `uloop_process_timeouts(now)` in the run of `acts`: the state
before it, the state it starts its loop in, and the actions and events inside
it so far. -/
structure Call (s : Timers) (acts : List Action) where
  before : Timers
  entry : Timers
  state : Timers
  now : Timeval
  first : List Action
  body : List Action
  rest : List Action
  prior : List Event
  events : List Event
  acts_eq : acts = first ++ .processTimeouts now :: (body ++ rest)
  run_first : run step s first = some (before, prior)
  enters : step before (.processTimeouts now) = some (entry, .entered now)
  run_body : run step entry body = some (state, events)
  inside : Inside (now :: before.calls) entry body

/-- The next turn is one of the call itself, and it leaves. -/
def Call.Leaves {s : Timers} {acts : List Action} (c : Call s acts) (after : Timers) : Prop :=
  c.state.calls = c.now :: c.before.calls ∧ step c.state .turn = some (after, .left)

/-- What the timer calls promise in the run of `acts` from `s`. -/
structure TimerService (s : Timers) (acts : List Action) : Prop where
  /-- A call that leaves has taken every timer that was due, unless a callback
  cancelled it or set it again first. -/
  served : ∀ (c : Call s acts) after, c.Leaves after →
    ∀ t, c.before.Due c.now t → ∃ e ∈ c.events, e.Concerns t
  /-- So has a call that has not left when it, or the calls inside it, have
  taken as many timers as were pending. -/
  progress : ∀ c : Call s acts, c.before.timeouts.length ≤ c.events.countP Event.expires →
    ∀ t, c.before.Due c.now t → ∃ e ∈ c.events, e.Concerns t
  /-- A call leaves no timer that is due. -/
  cleared : ∀ (c : Call s acts) after, c.Leaves after → ∀ t, ¬after.Due c.now t
  /-- A timer is taken again only when it was armed again. -/
  once : ∀ s' front mid back t ran ran',
    run step s acts = some (s', front ++ .expired t ran :: (mid ++ .expired t ran' :: back)) →
    .armed t ∈ mid
  /-- The callback of a timer that is taken runs, and not a millisecond early. -/
  timely : ∀ first rest s₁ s₂ prior t ran, acts = first ++ .turn :: rest →
    run step s first = some (s₁, prior) → step s₁ .turn = some (s₂, .expired t ran) →
    ran = (s₁.timer t).cb ∧ ∃ now ∈ s₁.calls.head?, (s₁.timer t).time.micros < now.micros + 1000

/-- Every difference `tv_diff` is asked for fits in an `int`. -/
def NoWrap (s : Timers) : Action → Prop
  | .set t msecs now =>
      (∀ p ∈ s.timeouts, p ≠ t → Fits (msDiff (s.timer p).time (deadline now msecs))) ∧
        ∀ tv ∈ s.calls, Fits (msDiff (deadline now msecs) tv)
  | .processTimeouts now => ∀ p ∈ s.timeouts, Fits (msDiff (s.timer p).time now)
  | _ => True

instance (d : Int) : Decidable (Fits d) := inferInstanceAs (Decidable (_ ∧ _))

instance : ∀ s a, Decidable (NoWrap s a)
  | s, .set t msecs now => inferInstanceAs (Decidable
      ((∀ p ∈ s.timeouts, p ≠ t → Fits (msDiff (s.timer p).time (deadline now msecs))) ∧
        ∀ tv ∈ s.calls, Fits (msDiff (deadline now msecs) tv)))
  | s, .processTimeouts now => inferInstanceAs (Decidable
      (∀ p ∈ s.timeouts, Fits (msDiff (s.timer p).time now)))
  | _, .cancel _ => inferInstanceAs (Decidable True)
  | _, .turn => inferInstanceAs (Decidable True)

/-! ## What the calls change -/

section

variable (s : Timers) (t x : Nat)

theorem cancel_time :
    ((uloopTimeoutCancel s t).1.timer x).time = (s.timer x).time := by
  unfold uloopTimeoutCancel
  split
  · by_cases hx : x = t <;> simp [hx]
  · rfl

theorem cancel_cb : ((uloopTimeoutCancel s t).1.timer x).cb = (s.timer x).cb := by
  unfold uloopTimeoutCancel
  split
  · by_cases hx : x = t <;> simp [hx]
  · rfl

theorem cancel_pending : ((uloopTimeoutCancel s t).1.timer x).pending
    = if x = t then false else (s.timer x).pending := by
  unfold uloopTimeoutCancel
  by_cases hx : x = t
  · subst x
    split <;> simp_all
  · split <;> simp [hx]

@[simp] theorem cancel_calls : (uloopTimeoutCancel s t).1.calls = s.calls := by
  unfold uloopTimeoutCancel
  split <;> rfl

@[simp] theorem cancel_clock : (uloopTimeoutCancel s t).1.clock = s.clock := by
  unfold uloopTimeoutCancel
  split <;> rfl

/-- The state in which `uloop_timeout_set` looks for the place of the timer. -/
def retimed (msecs : Nat) (now : Timeval) : Timers :=
  let s := (uloopTimeoutCancel s t).1
  { s with timer := Function.update s.timer t { s.timer t with time := deadline now msecs } }

variable (msecs : Nat) (now : Timeval)

theorem retimed_time : ((retimed s t msecs now).timer x).time
    = if x = t then deadline now msecs else (s.timer x).time := by
  by_cases hx : x = t
  · simp [retimed, hx]
  · simp [retimed, hx, cancel_time]

theorem retimed_pending : ((retimed s t msecs now).timer x).pending
    = if x = t then false else (s.timer x).pending := by
  by_cases hx : x = t
  · simp [retimed, hx, cancel_pending]
  · simp [retimed, hx, cancel_pending]

theorem set_eq : (uloopTimeoutSet s t msecs now).1 = { retimed s t msecs now with
    timeouts := (retimed s t msecs now).addSorted t (uloopTimeoutCancel s t).1.timeouts
    timer := Function.update (retimed s t msecs now).timer t
      { (retimed s t msecs now).timer t with pending := true } } := by
  have hpending : ((retimed s t msecs now).timer t).pending = false := by
    rw [retimed_pending, if_pos rfl]
  change (uloopTimeoutAdd (retimed s t msecs now) t).1 = _
  rw [uloopTimeoutAdd, hpending]
  rfl

theorem set_time : ((uloopTimeoutSet s t msecs now).1.timer x).time
    = if x = t then deadline now msecs else (s.timer x).time := by
  rw [set_eq]
  by_cases hx : x = t <;> simp [hx, retimed_time]

theorem set_pending : ((uloopTimeoutSet s t msecs now).1.timer x).pending
    = if x = t then true else (s.timer x).pending := by
  rw [set_eq]
  by_cases hx : x = t <;> simp [hx, retimed_pending]

@[simp] theorem set_calls : (uloopTimeoutSet s t msecs now).1.calls = s.calls := by
  rw [set_eq]
  exact cancel_calls s t

@[simp] theorem set_timeouts : (uloopTimeoutSet s t msecs now).1.timeouts
    = (retimed s t msecs now).addSorted t (uloopTimeoutCancel s t).1.timeouts := by
  rw [set_eq]

end

/-! ## The order of the list -/

/-- The list holds the pending timers, once each, and an entry in front of
another does not look later than it. -/
structure Ordered (s : Timers) : Prop where
  nodup : s.timeouts.Nodup
  mem_iff : ∀ t, t ∈ s.timeouts ↔ (s.timer t).pending = true
  inRange : ∀ t ∈ s.timeouts, (s.timer t).time.InRange
  pairwise : s.timeouts.Pairwise fun a b => msDiff (s.timer a).time (s.timer b).time ≤ 0

theorem mem_addSorted (s : Timers) (t x : Nat) (l : List Nat) :
    x ∈ s.addSorted t l ↔ x = t ∨ x ∈ l := by
  induction l with
  | nil => simp [Timers.addSorted]
  | cons tmp rest ih =>
      unfold Timers.addSorted
      split
      · simp
      · rw [List.mem_cons, ih, List.mem_cons]
        tauto

theorem nodup_addSorted {s : Timers} {t : Nat} {l : List Nat} (hl : l.Nodup) (ht : t ∉ l) :
    (s.addSorted t l).Nodup := by
  induction l with
  | nil => simp [Timers.addSorted]
  | cons tmp rest ih =>
      unfold Timers.addSorted
      split
      · exact List.nodup_cons.mpr ⟨ht, hl⟩
      · obtain ⟨htmp, hrest⟩ := List.nodup_cons.mp hl
        have hne : tmp ≠ t := fun h => ht (h ▸ List.mem_cons_self)
        refine List.nodup_cons.mpr ⟨?_, ih hrest fun h => ht (List.mem_cons_of_mem _ h)⟩
        rw [mem_addSorted]
        exact fun h => h.elim hne htmp

/-- The insertion keeps the order: an entry behind the place found is not
earlier than the new timer, else the entry at that place would look at least as
late from it. -/
theorem pairwise_addSorted {s : Timers} {t : Nat} {l : List Nat}
    (hl : l.Pairwise fun a b => msDiff (s.timer a).time (s.timer b).time ≤ 0)
    (hrange : ∀ x ∈ l, (s.timer x).time.InRange) (ht : (s.timer t).time.InRange)
    (hfits : ∀ x ∈ l, Fits (msDiff (s.timer x).time (s.timer t).time)) :
    (s.addSorted t l).Pairwise fun a b => msDiff (s.timer a).time (s.timer b).time ≤ 0 := by
  induction l with
  | nil => simp [Timers.addSorted]
  | cons tmp rest ih =>
      obtain ⟨htmp, hrest⟩ := List.pairwise_cons.mp hl
      have hdiff := tvDiff_eq (hfits tmp List.mem_cons_self)
      unfold Timers.addSorted
      split
      · next hlater =>
          rw [hdiff] at hlater
          refine List.pairwise_cons.mpr ⟨?_, hl⟩
          intro x hx
          by_contra hnot
          have hx_lt := micros_lt_of_msDiff_pos (not_le.mp hnot)
          have hdist := msDiff_le_of_micros_lt (x := (s.timer tmp).time) (hrange x hx) ht hx_lt
          rcases List.mem_cons.mp hx with rfl | hx
          · have := micros_lt_of_msDiff_pos hlater
            omega
          · have := htmp x hx
            omega
      · next hlater =>
          rw [hdiff] at hlater
          refine List.pairwise_cons.mpr ⟨?_, ih hrest (fun x hx => hrange x (List.mem_cons_of_mem _ hx))
            fun x hx => hfits x (List.mem_cons_of_mem _ hx)⟩
          intro x hx
          rcases (mem_addSorted s t x rest).mp hx with rfl | hx
          · exact not_lt.mp hlater
          · exact htmp x hx

theorem Ordered.cancel_timeouts {s : Timers} (h : Ordered s) (t : Nat) :
    (uloopTimeoutCancel s t).1.timeouts = s.timeouts.erase t := by
  unfold uloopTimeoutCancel
  split
  · rfl
  · next hpending => exact (List.erase_of_not_mem (mt (h.mem_iff t).mp hpending)).symm

theorem Ordered.cancel {s : Timers} (h : Ordered s) (t : Nat) :
    Ordered (uloopTimeoutCancel s t).1 := by
  have htimeouts := h.cancel_timeouts t
  constructor
  · rw [htimeouts]
    exact h.nodup.erase t
  · intro x
    rw [htimeouts, h.nodup.mem_erase_iff, cancel_pending, h.mem_iff]
    by_cases hx : x = t <;> simp [hx]
  · intro x hx
    rw [htimeouts] at hx
    rw [cancel_time]
    exact h.inRange x (List.mem_of_mem_erase hx)
  · rw [htimeouts]
    simp only [cancel_time]
    exact h.pairwise.sublist List.erase_sublist

theorem Ordered.set {s : Timers} (h : Ordered s) {t msecs : Nat} {now : Timeval}
    (hnow : now.IsReading)
    (hfits : ∀ p ∈ s.timeouts, p ≠ t → Fits (msDiff (s.timer p).time (deadline now msecs))) :
    Ordered (uloopTimeoutSet s t msecs now).1 := by
  have hcancel := h.cancel t
  have herase := h.cancel_timeouts t
  have hne : ∀ x ∈ (uloopTimeoutCancel s t).1.timeouts, x ≠ t ∧ x ∈ s.timeouts := by
    intro x hx
    rw [herase, h.nodup.mem_erase_iff] at hx
    exact hx
  have hrange : ∀ x ∈ (uloopTimeoutCancel s t).1.timeouts,
      ((retimed s t msecs now).timer x).time.InRange := by
    intro x hx
    rw [retimed_time, if_neg (hne x hx).1]
    exact h.inRange x (hne x hx).2
  have htime : ∀ x, ((uloopTimeoutSet s t msecs now).1.timer x).time
      = ((retimed s t msecs now).timer x).time := by
    intro x
    rw [set_time, retimed_time]
  have ht : ((retimed s t msecs now).timer t).time.InRange := by
    rw [retimed_time, if_pos rfl]
    exact deadline_inRange hnow msecs
  constructor
  · rw [set_timeouts]
    exact nodup_addSorted hcancel.nodup fun hmem => (hne t hmem).1 rfl
  · intro x
    rw [set_timeouts, mem_addSorted, hcancel.mem_iff, cancel_pending, set_pending]
    by_cases hx : x = t <;> simp [hx]
  · intro x hx
    rw [set_timeouts, mem_addSorted] at hx
    rw [htime]
    rcases hx with rfl | hx
    · exact ht
    · exact hrange x hx
  · rw [set_timeouts]
    simp only [htime]
    refine pairwise_addSorted ?_ hrange ht ?_
    · refine hcancel.pairwise.imp_of_mem ?_
      intro a b ha hb hab
      rw [retimed_time, retimed_time, if_neg (hne a ha).1, if_neg (hne b hb).1]
      rwa [cancel_time, cancel_time] at hab
    · intro x hx
      rw [retimed_time, retimed_time, if_neg (hne x hx).1, if_pos rfl]
      exact hfits x (hne x hx).2 (hne x hx).1

/-! ## The invariant of a run -/

/-- The list is in order, the calls in progress were made at earlier readings
of the clock, and no pending timer is too far from one of them. -/
structure Timely (s : Timers) : Prop extends Ordered s where
  clock : s.clock.IsReading
  calls : ∀ now ∈ s.calls, now.IsReading ∧ now.micros ≤ s.clock.micros
  fits : ∀ now ∈ s.calls, ∀ t ∈ s.timeouts, Fits (msDiff (s.timer t).time now)

/-- What a turn of the loop can do. -/
theorem turn_cases {s s' : Timers} {e : Event} (h : step s .turn = some (s', e)) :
    ∃ tv calls, s.calls = tv :: calls ∧
      ((e = .left ∧ s' = { s with calls } ∧
          ∀ t ∈ s.timeouts.head?, 0 < tvDiff (s.timer t).time tv) ∨
        ∃ t rest, s.timeouts = t :: rest ∧ tvDiff (s.timer t).time tv ≤ 0 ∧
          e = .expired t (s.timer t).cb ∧ s' = (uloopTimeoutCancel s t).1) := by
  cases hcalls : s.calls with
  | nil => simp [step, hcalls] at h
  | cons tv calls =>
      refine ⟨tv, calls, rfl, ?_⟩
      cases hlist : s.timeouts with
      | nil =>
          simp only [step, hcalls, uloopProcessTurn, hlist, Option.some.injEq, Prod.mk.injEq] at h
          exact .inl ⟨h.2.symm, h.1.symm, by simp⟩
      | cons t rest =>
          simp only [step, hcalls, uloopProcessTurn, hlist, Option.some.injEq] at h
          split at h
          · next hlater =>
              cases h
              exact .inl ⟨rfl, rfl, by simpa using hlater⟩
          · next hdue =>
              cases h
              exact .inr ⟨t, rest, rfl, not_lt.mp hdue, rfl, rfl⟩

theorem step_set {s s' : Timers} {t msecs : Nat} {now : Timeval} {e : Event}
    (h : step s (.set t msecs now) = some (s', e)) :
    s.Reads now ∧ e = .armed t ∧
      s' = { (uloopTimeoutSet s t msecs now).1 with clock := now } := by
  simp only [step] at h
  split at h
  · next hread =>
      cases h
      exact ⟨hread.2, rfl, rfl⟩
  · cases h

theorem step_processTimeouts {s s' : Timers} {now : Timeval} {e : Event}
    (h : step s (.processTimeouts now) = some (s', e)) :
    s.Reads now ∧ e = .entered now ∧ s' = { s with calls := now :: s.calls, clock := now } := by
  simp only [step] at h
  split at h
  · next hread =>
      cases h
      exact ⟨hread, rfl, rfl⟩
  · cases h

theorem step_cancel {s s' : Timers} {t : Nat} {e : Event}
    (h : step s (.cancel t) = some (s', e)) :
    s' = (uloopTimeoutCancel s t).1 ∧
      e = if (s.timer t).pending then .cancelled t else .refused t := by
  simp only [step, Option.some.injEq, Prod.mk.injEq] at h
  exact ⟨h.1.symm, h.2.symm⟩

theorem Timely.cancel {s : Timers} (h : Timely s) (t : Nat) :
    Timely (uloopTimeoutCancel s t).1 := by
  refine ⟨h.toOrdered.cancel t, ?_, ?_, ?_⟩
  · rw [cancel_clock]
    exact h.clock
  · intro now hnow
    rw [cancel_calls] at hnow
    rw [cancel_clock]
    exact h.calls now hnow
  · intro now hnow x hx
    rw [cancel_calls] at hnow
    rw [h.toOrdered.cancel_timeouts] at hx
    rw [cancel_time]
    exact h.fits now hnow x (List.mem_of_mem_erase hx)

/-- Every step without a cut difference keeps the invariant. -/
theorem Timely.kept {s s' : Timers} {a : Action} {e : Event} (h : Timely s) (hok : NoWrap s a)
    (hstep : step s a = some (s', e)) : Timely s' := by
  cases a with
  | set t msecs now =>
      obtain ⟨⟨hnow, hclock⟩, -, rfl⟩ := step_set hstep
      have hordered := h.toOrdered.set hnow hok.1
      refine ⟨⟨hordered.nodup, hordered.mem_iff, hordered.inRange, hordered.pairwise⟩,
        hnow, ?_, ?_⟩
      · intro tv htv
        obtain ⟨hread, hle⟩ := h.calls tv (by simpa using htv)
        exact ⟨hread, le_trans hle hclock⟩
      · intro tv htv x hx
        have htv : tv ∈ s.calls := by simpa using htv
        have hx := (hordered.mem_iff x).mp hx
        change Fits (msDiff ((uloopTimeoutSet s t msecs now).1.timer x).time tv)
        rw [set_pending] at hx
        rw [set_time]
        by_cases hxt : x = t
        · rw [if_pos hxt]
          exact hok.2 tv htv
        · rw [if_neg hxt] at hx ⊢
          exact h.fits tv htv x ((h.mem_iff x).mpr hx)
  | cancel t =>
      obtain ⟨rfl, -⟩ := step_cancel hstep
      exact h.cancel t
  | processTimeouts now =>
      obtain ⟨⟨hnow, hclock⟩, -, rfl⟩ := step_processTimeouts hstep
      refine ⟨⟨h.nodup, h.mem_iff, h.inRange, h.pairwise⟩, hnow, ?_, ?_⟩
      · intro tv htv
        rcases List.mem_cons.mp htv with rfl | htv
        · exact ⟨hnow, le_rfl⟩
        · exact ⟨(h.calls tv htv).1, le_trans (h.calls tv htv).2 hclock⟩
      · intro tv htv x hx
        rcases List.mem_cons.mp htv with rfl | htv
        · exact hok x hx
        · exact h.fits tv htv x hx
  | turn =>
      obtain ⟨tv, calls, hcalls, ⟨-, rfl, -⟩ | ⟨t, rest, -, -, -, rfl⟩⟩ := turn_cases hstep
      · have hsub : ∀ now ∈ calls, now ∈ s.calls := by
          intro now hnow
          rw [hcalls]
          exact List.mem_cons_of_mem _ hnow
        exact ⟨⟨h.nodup, h.mem_iff, h.inRange, h.pairwise⟩, h.clock,
          fun now hnow => h.calls now (hsub now hnow),
          fun now hnow => h.fits now (hsub now hnow)⟩
      · exact h.cancel t

theorem timely_initial (cb : Nat → Bool) {clock : Timeval} (h : clock.IsReading) :
    Timely (initial cb clock) :=
  ⟨⟨List.nodup_nil, by simp [initial], by simp [initial], List.Pairwise.nil⟩, h,
    by simp [initial], by simp [initial]⟩

/-! ## One call -/

/-- Where the loop leaves, every pending timer is later than its argument. -/
theorem Timely.later_of_left {s s' : Timers} (h : Timely s) {tv : Timeval}
    (hhead : tv ∈ s.calls.head?) (hstep : step s .turn = some (s', .left)) :
    s'.timer = s.timer ∧ ∀ t, (s.timer t).pending = true →
      tv.micros < (s.timer t).time.micros := by
  obtain ⟨tv', calls, hcalls, ⟨-, rfl, hlater⟩ | ⟨t, rest, -, -, hevent, -⟩⟩ := turn_cases hstep
  · rw [hcalls] at hhead
    cases hhead
    refine ⟨rfl, ?_⟩
    intro t ht
    have htv : tv ∈ s.calls := by
      rw [hcalls]
      exact List.mem_cons_self
    have hmem := (h.mem_iff t).mpr ht
    cases hlist : s.timeouts with
    | nil =>
        rw [hlist] at hmem
        cases hmem
    | cons first rest =>
        rw [hlist] at hmem hlater
        have hfirst : first ∈ s.timeouts := by
          rw [hlist]
          exact List.mem_cons_self
        have hdiff := hlater first rfl
        rw [tvDiff_eq (h.fits tv htv first hfirst)] at hdiff
        have hfirst_lt := micros_lt_of_msDiff_pos hdiff
        rcases List.mem_cons.mp hmem with rfl | hrest
        · exact hfirst_lt
        · by_contra hdue
          have hmem : t ∈ s.timeouts := (h.mem_iff t).mpr ht
          have hdist := msDiff_le_of_micros_le (x := (s.timer first).time) (h.inRange t hmem)
            (h.calls tv htv).1 (not_lt.mp hdue)
          have hpair := h.pairwise
          rw [hlist] at hpair
          have := (List.pairwise_cons.mp hpair).1 t hrest
          omega
  · cases hevent

/-- Only an event of its own changes a timer. -/
theorem timer_of_not_concerns {s s' : Timers} {a : Action} {e : Event} {t : Nat}
    (hstep : step s a = some (s', e)) (he : ¬e.Concerns t) :
    (s'.timer t).pending = (s.timer t).pending ∧ (s'.timer t).time = (s.timer t).time := by
  have hcancel : ∀ u, t ≠ u →
      ((uloopTimeoutCancel s u).1.timer t).pending = (s.timer t).pending ∧
        ((uloopTimeoutCancel s u).1.timer t).time = (s.timer t).time := by
    intro u hu
    rw [cancel_pending, if_neg hu, cancel_time]
    exact ⟨rfl, rfl⟩
  cases a with
  | set u msecs now =>
      obtain ⟨-, rfl, rfl⟩ := step_set hstep
      have hu : t ≠ u := fun h => he h.symm
      change ((uloopTimeoutSet s u msecs now).1.timer t).pending = _ ∧
        ((uloopTimeoutSet s u msecs now).1.timer t).time = _
      rw [set_pending, set_time, if_neg hu, if_neg hu]
      exact ⟨rfl, rfl⟩
  | cancel u =>
      obtain ⟨rfl, rfl⟩ := step_cancel hstep
      by_cases hu : t = u
      · subst u
        cases hpending : (s.timer t).pending with
        | true => simp [hpending, Event.Concerns] at he
        | false => simp [uloopTimeoutCancel, hpending]
      · exact hcancel u hu
  | processTimeouts now =>
      obtain ⟨-, -, rfl⟩ := step_processTimeouts hstep
      exact ⟨rfl, rfl⟩
  | turn =>
      obtain ⟨tv, calls, -, ⟨-, rfl, -⟩ | ⟨u, rest, -, -, rfl, rfl⟩⟩ := turn_cases hstep
      · exact ⟨rfl, rfl⟩
      · exact hcancel u fun h => he h.symm

/-- A timer that is taken off the list is not pending any more. -/
theorem pending_of_expired {s s' : Timers} {a : Action} {t : Nat} {ran : Bool}
    (hstep : step s a = some (s', .expired t ran)) : (s'.timer t).pending = false := by
  cases a with
  | set u msecs now => cases (step_set hstep).2.1
  | cancel u =>
      have := (step_cancel hstep).2
      split at this <;> cases this
  | processTimeouts now => cases (step_processTimeouts hstep).2.1
  | turn =>
      obtain ⟨tv, calls, -, ⟨he, -⟩ | ⟨u, rest, -, -, he, rfl⟩⟩ := turn_cases hstep
      · cases he
      · cases he
        rw [cancel_pending, if_pos rfl]

/-- All that can happen to a timer that is not pending is that it is armed. -/
theorem armed_of_concerns {s s' : Timers} (h : Ordered s) {a : Action} {e : Event} {t : Nat}
    (hidle : (s.timer t).pending = false) (hstep : step s a = some (s', e))
    (he : e.Concerns t) : e = .armed t := by
  cases a with
  | set u msecs now =>
      obtain ⟨-, rfl, -⟩ := step_set hstep
      exact congrArg Event.armed he
  | cancel u =>
      obtain ⟨-, rfl⟩ := step_cancel hstep
      split at he
      · next hpending =>
          have hu : u = t := he
          rw [hu, hidle] at hpending
          cases hpending
      · exact he.elim
  | processTimeouts now =>
      obtain ⟨-, rfl, -⟩ := step_processTimeouts hstep
      exact he.elim
  | turn =>
      obtain ⟨tv, calls, -, ⟨rfl, -, -⟩ | ⟨u, rest, hlist, -, rfl, -⟩⟩ := turn_cases hstep
      · exact he.elim
      · have hu : u = t := he
        have hmem : u ∈ s.timeouts := by
          rw [hlist]
          exact List.mem_cons_self
        rw [hu, h.mem_iff, hidle] at hmem
        cases hmem

/-- A new timer that is not earlier than `t` is put behind it, and so behind
everything in front of it. -/
theorem addSorted_behind {s : Timers} {t x : Nat} {pre post : List Nat}
    (hpre : ∀ y ∈ pre ++ [t], tvDiff (s.timer y).time (s.timer x).time ≤ 0) :
    s.addSorted x (pre ++ t :: post) = pre ++ t :: s.addSorted x post := by
  induction pre with
  | nil =>
      have ht := hpre t (by simp)
      rw [List.nil_append, Timers.addSorted, if_neg (not_lt.mpr ht)]
      rfl
  | cons y pre ih =>
      have hy := hpre y (by simp)
      rw [List.cons_append, Timers.addSorted, if_neg (not_lt.mpr hy),
        ih fun z hz => hpre z (List.mem_cons_of_mem _ hz)]
      rfl

theorem erase_ahead (pre post : List Nat) {t u : Nat} (hu : t ≠ u) :
    ∃ pre' post', (pre ++ t :: post).erase u = pre' ++ t :: post' ∧
      pre'.length ≤ pre.length ∧ (∀ y ∈ pre', y ∈ pre) := by
  by_cases hmem : u ∈ pre
  · refine ⟨pre.erase u, post, List.erase_append_left _ hmem, ?_, ?_⟩
    · exact List.length_erase_le
    · exact fun y hy => List.mem_of_mem_erase hy
  · refine ⟨pre, post.erase u, ?_, le_rfl, fun y hy => hy⟩
    rw [List.erase_append_right _ hmem, List.erase_cons_tail (by simpa using hu)]

/-- A deadline set after `now` is seen at no greater distance than a timer that
is due at `now`: it is later, or it is a reading of the clock itself. -/
theorem msDiff_deadline_le {now clock : Timeval} {x t : Timeval} {msecs : Nat}
    (hclock : clock.IsReading) (hnow : now.micros ≤ clock.micros) (ht : t.InRange)
    (hdue : t.micros ≤ now.micros) : msDiff x (deadline clock msecs) ≤ msDiff x t := by
  have hmicros := micros_deadline clock msecs
  rcases Nat.eq_zero_or_pos msecs with rfl | hpos
  · have hread : (deadline clock 0).IsReading := by
      unfold Timeval.IsReading at hclock
      unfold deadline Timeval.IsReading
      simp only
      split <;> constructor <;> simp only <;> omega
    exact msDiff_le_of_micros_le ht hread (by omega)
  · exact msDiff_le_of_micros_lt ht (deadline_inRange hclock msecs) (by omega)

/-- As long as a due timer is left alone, nothing is put in front of it, and
every timer taken off the list is one from in front of it. -/
theorem Timely.ahead_step {s s' : Timers} (h : Timely s) {a : Action} {e : Event}
    (hok : NoWrap s a) (hstep : step s a = some (s', e)) {now : Timeval} {t : Nat}
    (hnow : now ∈ s.calls) (hdue : s.Due now t) (he : ¬e.Concerns t) {pre post : List Nat}
    (hlist : s.timeouts = pre ++ t :: post) :
    ∃ pre' post', s'.timeouts = pre' ++ t :: post' ∧
      pre'.length + (if e.expires then 1 else 0) ≤ pre.length := by
  cases a with
  | set u msecs clock =>
      obtain ⟨⟨hread, hclock⟩, rfl, rfl⟩ := step_set hstep
      have hu : t ≠ u := fun heq => he heq.symm
      obtain ⟨pre', post', herase, hlen, hsub⟩ := erase_ahead pre post hu
      refine ⟨pre', (retimed s u msecs clock).addSorted u post', ?_, by simpa [Event.expires]⟩
      have htime : ∀ x, x ≠ u → ((retimed s u msecs clock).timer x).time = (s.timer x).time :=
        fun x hx => by rw [retimed_time, if_neg hx]
      change (uloopTimeoutSet s u msecs clock).1.timeouts = _
      rw [set_timeouts, h.toOrdered.cancel_timeouts, hlist, herase]
      apply addSorted_behind
      have hnodup := h.nodup
      rw [hlist] at hnodup
      intro y hy
      have hy : y = t ∨ y ∈ pre' := by simpa [or_comm] using hy
      have hmem : y ∈ s.timeouts := by
        rw [hlist]
        rcases hy with rfl | hy
        · simp
        · simp [hsub y hy]
      have hyu : y ≠ u := by
        have herased : u ∉ (pre ++ t :: post).erase u := hnodup.not_mem_erase
        rintro rfl
        apply herased
        rw [herase]
        rcases hy with rfl | hy
        · simp
        · simp [hy]
      rw [htime y hyu, retimed_time, if_pos rfl, tvDiff_eq (hok.1 y hmem hyu)]
      have hdist : msDiff (s.timer y).time (deadline clock msecs) ≤ _ := msDiff_deadline_le hread
        (le_trans (h.calls now hnow).2 hclock)
        (h.inRange t ((h.mem_iff t).mpr hdue.1)) hdue.2
      refine le_trans hdist ?_
      rcases hy with rfl | hy
      · simp [msDiff]
      · have hpair := h.pairwise
        rw [hlist] at hpair
        exact (List.pairwise_append.mp hpair).2.2 y (hsub y hy) t List.mem_cons_self
  | cancel u =>
      obtain ⟨rfl, rfl⟩ := step_cancel hstep
      rw [h.toOrdered.cancel_timeouts, hlist]
      by_cases hu : t = u
      · subst u
        simp [hdue.1, Event.Concerns] at he
      · obtain ⟨pre', post', herase, hlen, -⟩ := erase_ahead pre post hu
        refine ⟨pre', post', herase, ?_⟩
        split <;> simpa [Event.expires]
  | processTimeouts clock =>
      obtain ⟨-, rfl, rfl⟩ := step_processTimeouts hstep
      exact ⟨pre, post, hlist, by simp [Event.expires]⟩
  | turn =>
      obtain ⟨tv, calls, -, ⟨rfl, rfl, -⟩ | ⟨u, rest, hhead, -, rfl, rfl⟩⟩ := turn_cases hstep
      · exact ⟨pre, post, hlist, by simp [Event.expires]⟩
      · have hu : t ≠ u := fun heq => he heq.symm
        rw [h.toOrdered.cancel_timeouts]
        rw [hlist] at hhead ⊢
        cases pre with
        | nil =>
            cases hhead
            exact absurd rfl hu
        | cons y pre =>
            cases hhead
            exact ⟨pre, post, by simp, by simp [Event.expires]⟩

theorem Timely.ahead_run {s s' : Timers} {calls : List Timeval} {now : Timeval} {t : Nat}
    {as : List Action} {trace : List Event} (h : Timely s) (hok : Along step NoWrap s as)
    (hinside : Inside (now :: calls) s as) (hrun : run step s as = some (s', trace))
    (hdue : s.Due now t) (htrace : ∀ e ∈ trace, ¬e.Concerns t) {pre post : List Nat}
    (hlist : s.timeouts = pre ++ t :: post) :
    trace.countP Event.expires ≤ pre.length := by
  induction as generalizing s trace pre post with
  | nil =>
      cases hrun
      exact Nat.zero_le _
  | cons a as ih =>
      obtain ⟨s₁, e, rest, hstep, hrest, rfl⟩ := run_cons_eq_some.mp hrun
      have he := htrace e List.mem_cons_self
      have hnow : now ∈ s.calls := hinside.1.subset List.mem_cons_self
      obtain ⟨pre', post', hlist', hlen⟩ :=
        h.ahead_step hok.1 hstep hnow hdue he hlist
      obtain ⟨hpending, htime⟩ := timer_of_not_concerns hstep he
      have hdue' : s₁.Due now t := by
        unfold Timers.Due
        rw [hpending, htime]
        exact hdue
      have hrec := ih (h.kept hok.1 hstep) (hok.2 (s₁, e) hstep) (hinside.2 (s₁, e) hstep) hrest
        hdue' (fun e' he' => htrace e' (List.mem_cons_of_mem _ he')) hlist'
      rw [List.countP_cons]
      omega

/-! ## Every run -/

section

variable {s : Timers} {acts : List Action}

/-- The invariant and the condition at the loop entry of a call. -/
theorem Timely.call (h : Timely s) (hok : Along step NoWrap s acts) (c : Call s acts) :
    Timely c.before ∧ Timely c.entry ∧ Along step NoWrap c.entry c.body := by
  have hkeep : ∀ s a s' e, Timely s → NoWrap s a → step s a = some (s', e) → Timely s' :=
    fun s a s' e hs ha hstep => hs.kept ha hstep
  rw [c.acts_eq] at hok
  obtain ⟨hfirst, hrest⟩ := hok.append c.run_first
  have hbefore := run_invariant hkeep h hfirst c.run_first
  have hbody : Along step NoWrap c.entry (c.body ++ c.rest) := hrest.2 (c.entry, _) c.enters
  exact ⟨hbefore, hbefore.kept hrest.1 c.enters, (hbody.append c.run_body).1⟩

theorem Call.entry_eq (c : Call s acts) :
    c.entry = { c.before with calls := c.now :: c.before.calls, clock := c.now } :=
  (step_processTimeouts c.enters).2.2

theorem Call.due_of_not_concerns (c : Call s acts) {t : Nat} (hdue : c.before.Due c.now t)
    (hevents : ∀ e ∈ c.events, ¬e.Concerns t) : c.state.Due c.now t := by
  refine run_invariant_of_trace (fun s => s.Due c.now t) ?_ ?_ (along_true _ _) c.run_body
    hevents
  · intro s a s' e hs _ hstep he
    obtain ⟨hpending, htime⟩ := timer_of_not_concerns hstep he
    unfold Timers.Due
    rw [hpending, htime]
    exact hs
  · rw [c.entry_eq]
    exact hdue

/-- A call leaves with every pending timer later than its argument. -/
theorem Call.Leaves.not_due {c : Call s acts} {after : Timers} (hleaves : c.Leaves after)
    (h : Timely c.state) (t : Nat) : ¬c.state.Due c.now t ∧ ¬after.Due c.now t := by
  have hhead : c.now ∈ c.state.calls.head? := by
    rw [hleaves.1]
    exact Option.mem_some_self _
  obtain ⟨htimer, hlater⟩ := h.later_of_left hhead hleaves.2
  constructor
  · rintro ⟨hpending, hdue⟩
    exact absurd hdue (not_le.mpr (hlater t hpending))
  · rintro ⟨hpending, hdue⟩
    rw [htimer] at hpending hdue
    exact absurd hdue (not_le.mpr (hlater t hpending))

/-- **The timer service.**  In every run in which no difference of times is cut
to an `int`, a call of `uloop_process_timeouts` serves what is due and nothing
that is a millisecond away. -/
theorem timerService_of_noWrap (cb : Nat → Bool) {clock : Timeval} (hclock : clock.IsReading)
    {acts : List Action} (hok : Along step NoWrap (initial cb clock) acts) :
    TimerService (initial cb clock) acts := by
  have hinit := timely_initial cb hclock
  have hkeep : ∀ s a s' e, Timely s → NoWrap s a → step s a = some (s', e) → Timely s' :=
    fun s a s' e hs ha hstep => hs.kept ha hstep
  have hstate (c : Call (initial cb clock) acts) : Timely c.state := by
    obtain ⟨-, hentry, hbody⟩ := hinit.call hok c
    exact run_invariant hkeep hentry hbody c.run_body
  constructor
  · -- a due timer nothing happened to would still be due where the call leaves
    intro c after hleaves t hdue
    by_contra hnone
    have hevents : ∀ e ∈ c.events, ¬e.Concerns t := fun e he hc => hnone ⟨e, he, hc⟩
    exact (hleaves.not_due (hstate c) t).1 (c.due_of_not_concerns hdue hevents)
  · intro c hcount t hdue
    by_contra hnone
    obtain ⟨hbefore, hentry, hbody⟩ := hinit.call hok c
    obtain ⟨pre, post, hlist⟩ := List.append_of_mem ((hbefore.mem_iff t).mpr hdue.1)
    have hentry_list : c.entry.timeouts = pre ++ t :: post := by
      rw [c.entry_eq]
      exact hlist
    have hentry_due : c.entry.Due c.now t := by
      rw [c.entry_eq]
      exact hdue
    have hle := hentry.ahead_run hbody c.inside c.run_body hentry_due
      (fun e he hc => hnone ⟨e, he, hc⟩) hentry_list
    rw [hlist, List.length_append, List.length_cons] at hcount
    omega
  · intro c after hleaves t
    exact (hleaves.not_due (hstate c) t).2
  · intro s' front mid back t ran ran' hrun
    obtain ⟨bs, a, cs, s₁, s₂, rfl, hbs, hstep, hcs⟩ := exists_of_trace hrun
    obtain ⟨hok_bs, hok_rest⟩ := hok.append hbs
    have htimely₁ := run_invariant hkeep hinit hok_bs hbs
    have hquiet : Timely s₂ ∧ (s₂.timer t).pending = false :=
      ⟨htimely₁.kept hok_rest.1 hstep, pending_of_expired hstep⟩
    have hidle : ∀ s a s' e, Timely s ∧ (s.timer t).pending = false → NoWrap s a →
        step s a = some (s', e) → ¬e = .armed t →
        (Timely s' ∧ (s'.timer t).pending = false) ∧ ¬e.Concerns t := by
      rintro s a s' e ⟨hs, hidle⟩ ha hstep hne
      have he : ¬e.Concerns t := fun hc => hne (armed_of_concerns hs.toOrdered hidle hstep hc)
      refine ⟨⟨hs.kept ha hstep, ?_⟩, he⟩
      rw [(timer_of_not_concerns hstep he).1]
      exact hidle
    obtain ⟨o, ho, rfl⟩ := exists_opening hidle hquiet (hok_rest.2 (s₂, _) hstep) hcs
      (by simp) rfl
    exact ho
  · intro first rest s₁ s₂ prior t ran hacts hfirst hstep
    rw [hacts] at hok
    have htimely := run_invariant hkeep hinit (hok.append hfirst).1 hfirst
    obtain ⟨tv, calls, hcalls, ⟨he, -⟩ | ⟨u, list, hlist, hdiff, he, -⟩⟩ := turn_cases hstep
    · cases he
    · cases he
      have htv : tv ∈ s₁.calls := by
        rw [hcalls]
        exact List.mem_cons_self
      have hmem : t ∈ s₁.timeouts := by
        rw [hlist]
        exact List.mem_cons_self
      rw [tvDiff_eq (htimely.fits tv htv t hmem)] at hdiff
      refine ⟨rfl, tv, ?_, micros_lt_of_msDiff_nonpos hdiff⟩
      rw [hcalls]
      exact Option.mem_some_self _

end

/-- A run with two timers, of which the second is set from a nested call. -/
theorem timerService_of_noWrap_nested : TimerService (initial (fun _ => true) ⟨0, 0⟩)
    [.set 0 5 ⟨0, 999999⟩, .processTimeouts ⟨1, 4999⟩, .turn, .set 1 2147483647 ⟨1, 5000⟩,
      .processTimeouts ⟨1, 5001⟩, .turn, .turn] :=
  timerService_of_noWrap _ (by decide) (by decide)

/-- Timer 0 is ten milliseconds overdue when timer 1 is set to the greatest
timeout: the difference is cut to a positive `int`, timer 1 is put in front,
and the call leaves with timer 0 pending. -/
theorem not_timerService_overdue : ¬TimerService (initial (fun _ => true) ⟨0, 0⟩)
    [.set 0 0 ⟨0, 0⟩, .set 1 2147483647 ⟨0, 10000⟩, .processTimeouts ⟨0, 10000⟩, .turn] := by
  intro h
  refine h.cleared
    { first := [.set 0 0 ⟨0, 0⟩, .set 1 2147483647 ⟨0, 10000⟩], now := ⟨0, 10000⟩
      body := [], rest := [.turn], before := _, entry := _, state := _, prior := _, events := _
      acts_eq := rfl, run_first := rfl, enters := rfl, run_body := rfl, inside := trivial }
    _ ⟨rfl, rfl⟩ 0 ⟨?_, ?_⟩
  · rfl
  · decide

end Libubox.Uloop
