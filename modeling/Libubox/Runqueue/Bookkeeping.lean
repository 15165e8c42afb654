import Libubox.Runqueue.Queue

/-!
# The bookkeeping of a run queue

`Book s` says that the flags of the tasks, the two lists and `running_tasks`
agree.  Three places change them (`activate`, `dequeue`, `enqueue`); everything
else leaves them as they are (`Book.of_same`).
-/

namespace Libubox.Runqueue

open Machine (run Along run_invariant)

variable {τ : Type*}

/-- The flags, the lists and the counter agree. -/
structure Book (s : State τ) : Prop where
  good : Walks.Good sides s.lists
  active : ∀ t, t ∈ s.active ↔ (s.task t).queued = true ∧ (s.task t).running = true
  inactive : ∀ t, t ∈ s.inactive ↔ (s.task t).queued = true ∧ (s.task t).running = false
  count : s.q.runningTasks = s.active.length

/-- Two states that the bookkeeping does not tell apart. -/
structure Same (s s' : State τ) : Prop where
  lists : s'.lists.lists = s.lists.lists
  queued : ∀ t, (s'.task t).queued = (s.task t).queued
  running : ∀ t, (s'.task t).running = (s.task t).running
  count : s'.q.runningTasks = s.q.runningTasks

variable {s s' : State τ} {e : Option (Callback τ)} {t : τ}

theorem Book.of_same (h : Book s) (hsame : Same s s') (hgood : Walks.Good sides s'.lists) :
    Book s' where
  good := hgood
  active u := by
    rw [State.active, hsame.lists, hsame.queued, hsame.running]
    exact h.active u
  inactive u := by
    rw [State.inactive, hsame.lists, hsame.queued, hsame.running]
    exact h.inactive u
  count := by
    rw [State.active, hsame.lists, hsame.count]
    exact h.count

/-- Changes of the stack and of the timer, and of other fields of the queue. -/
theorem Book.control (h : Book s) (stack : List (Frame τ)) (q : Queue)
    (hq : q.runningTasks = s.q.runningTasks) : Book { s with stack, q } :=
  h.of_same ⟨rfl, fun _ => rfl, fun _ => rfl, hq⟩ h.good

theorem Book.push (h : Book s) (f : Frame τ) : Book (s.push f) :=
  h.control (f :: s.stack) s.q rfl

theorem Book.queued_of_mem (h : Book s) {k : Side} (ht : t ∈ s.lists.lists k) :
    (s.task t).queued = true := by
  cases k with
  | active => exact ((h.active t).mp ht).1
  | inactive => exact ((h.inactive t).mp ht).1

/-- A task that is not queued is on no list. -/
theorem Book.notMem (h : Book s) (ht : (s.task t).queued = false) :
    ∀ k ∈ sides, t ∉ s.lists.lists k := by
  intro k _ hmem
  rw [h.queued_of_mem hmem] at ht
  cases ht

theorem mem_sides (k : Side) : k ∈ sides := by cases k <;> decide

theorem Book.ret (h : Book s) (heq : s.ret = some (s', e)) : Book s' := by
  cases heq
  exact h

theorem Book.enter {cb : Callback τ} (h : Book s) (heq : s.enter cb = some (s', e)) : Book s' := by
  cases heq
  exact h.push (.user cb)

theorem Book.startNext (h : Book s) : Book s.runqueueStartNext := by
  unfold State.runqueueStartNext
  split
  · exact h
  · exact h.control s.stack _ rfl

theorem Book.startNextEnd (h : Book s) : Book s.startNextEnd := by
  unfold State.startNextEnd
  split
  · split <;> exact h.control s.stack _ rfl
  · exact h

theorem Book.taskKillRest {running : Bool} (h : Book s)
    (heq : s.taskKillRest t running = some (s', e)) : Book s' := by
  unfold State.taskKillRest at heq
  split at heq
  · split at heq
    · cases heq
    · split at heq
      · exact (h.push .killed).enter heq
      · exact h.startNext.ret heq
  · exact h.startNext.ret heq

variable [DecidableEq τ]

/-- A task whose flags stay as they are. -/
theorem Book.setTask (h : Book s) {v : Task} (hqueued : v.queued = (s.task t).queued)
    (hrunning : v.running = (s.task t).running) : Book (s.setTask t v) := by
  refine h.of_same ⟨rfl, ?_, ?_, rfl⟩ h.good
  · intro u
    by_cases hu : u = t
    · subst hu
      simpa [State.setTask] using hqueued
    · simp [State.setTask, hu]
  · intro u
    by_cases hu : u = t
    · subst hu
      simpa [State.setTask] using hrunning
    · simp [State.setTask, hu]

theorem length_filter_ne {xs : List τ} (hnodup : xs.Nodup) (ht : t ∈ xs) :
    (xs.filter (· ≠ t)).length + 1 = xs.length := by
  have herase := hnodup.erase_eq_filter t
  have hpos : 0 < xs.length := List.length_pos_of_mem ht
  have hfilter : xs.filter (· ≠ t) = xs.erase t := by
    rw [herase]
    apply List.filter_congr
    intro x _
    simp [bne, decide_not, beq_eq_decide]
  rw [hfilter, List.length_erase_of_mem ht]
  omega

theorem filter_ne {xs : List τ} (ht : t ∉ xs) : xs.filter (· ≠ t) = xs := by
  apply List.filter_eq_self.mpr
  intro x hx
  have hne : x ≠ t := fun heq => ht (heq ▸ hx)
  simpa using hne

/-- A task leaves the queue. -/
theorem Book.dequeue (h : Book s) (ht : (s.task t).queued = true) : Book (s.dequeue t) where
  good := h.good.del t
  active u := by
    by_cases hu : u = t
    · subst hu
      simp [State.dequeue, State.setTask, State.active]
    · have := h.active u
      simpa [State.dequeue, State.setTask, State.active, hu] using this
  inactive u := by
    by_cases hu : u = t
    · subst hu
      simp [State.dequeue, State.setTask, State.inactive]
    · have := h.inactive u
      simpa [State.dequeue, State.setTask, State.inactive, hu] using this
  count := by
    change (if (s.task t).running then { s.q with runningTasks := s.q.runningTasks - 1 }
      else s.q).runningTasks = ((s.active.filter (· ≠ t)).length : Int)
    have hcount := h.count
    by_cases hrun : (s.task t).running = true
    · have hlength := length_filter_ne (h.good.nodup .active) ((h.active t).mpr ⟨ht, hrun⟩)
      rw [if_pos hrun]
      simp only [State.active] at hcount ⊢
      omega
    · have hmem : t ∉ s.active := fun hmem => hrun ((h.active t).mp hmem).2
      rw [if_neg hrun, filter_ne hmem]
      exact hcount

/-- A task comes into the queue. -/
theorem Book.enqueue (h : Book s) (ht : (s.task t).queued = false) (running first : Bool) :
    Book (s.enqueue t running first) := by
  have hnot := h.notMem ht
  have hlists : ∀ u k, u ∈ (s.enqueue t running first).lists.lists k ↔
      u = t ∧ k = (if running then Side.active else .inactive) ∨ u ∈ s.lists.lists k := by
    intro u k
    cases first with
    | false => exact Walks.mem_add
    | true => exact Walks.mem_addFirst
  have hlength : ((s.enqueue t running first).active.length : Int)
      = s.active.length + if running then 1 else 0 := by
    cases running <;> cases first <;>
      simp [State.enqueue, State.setTask, State.active, Walks.State.add, Walks.State.addFirst]
  refine ⟨?_, ?_, ?_, ?_⟩
  · cases first with
    | false => exact h.good.add (mem_sides _) hnot
    | true => exact h.good.addFirst (mem_sides _) hnot
  · intro u
    rw [State.active, hlists]
    by_cases hu : u = t
    · subst hu
      have hmem := hnot .active (mem_sides _)
      cases running <;> simp [State.enqueue, State.setTask, hmem]
    · have := h.active u
      simpa [State.enqueue, State.setTask, State.active, hu] using this
  · intro u
    rw [State.inactive, hlists]
    by_cases hu : u = t
    · subst hu
      have hmem := hnot .inactive (mem_sides _)
      cases running <;> simp [State.enqueue, State.setTask, hmem]
    · have := h.inactive u
      simpa [State.enqueue, State.setTask, State.inactive, hu] using this
  · have hcount := h.count
    rw [hlength]
    cases running <;> simp [State.enqueue, State.setTask, hcount]

/-- A task that was waiting becomes a running one. -/
theorem Book.activate (h : Book s) (ht : t ∈ s.inactive) : Book (s.activate t) := by
  obtain ⟨hqueued, hrunning⟩ := (h.inactive t).mp ht
  have hmem : t ∉ s.active := by
    intro hmem
    rw [((h.active t).mp hmem).2] at hrunning
    cases hrunning
  refine ⟨?_, ?_, ?_, ?_⟩
  · exact (h.good.del t).add (mem_sides _) fun k _ hk => (Walks.mem_del.mp hk).2 rfl
  · intro u
    by_cases hu : u = t
    · subst hu
      simp [State.activate, State.setTask, State.active, hqueued]
    · have := h.active u
      simpa [State.activate, State.setTask, State.active, hu] using this
  · intro u
    by_cases hu : u = t
    · subst hu
      simp [State.activate, State.setTask, State.inactive]
    · have := h.inactive u
      simpa [State.activate, State.setTask, State.inactive, hu] using this
  · have hactive : (s.activate t).active = s.active.filter (· ≠ t) ++ [t] := by
      simp [State.activate, State.setTask, State.active, Walks.State.add, Walks.State.del]
    rw [hactive, filter_ne hmem, List.length_append]
    have hcount := h.count
    simp [State.activate, State.setTask, hcount]

/-! ## The functions -/

theorem Book.startNextLoop (h : Book s) (heq : s.startNextLoop = some (s', e)) : Book s' := by
  unfold State.startNextLoop at heq
  split at heq
  · exact h.startNextEnd.ret heq
  · split at heq
    · exact h.startNextEnd.ret heq
    · next t rest hinactive =>
        split at heq
        · exact h.startNextEnd.ret heq
        · split at heq
          · have ht : t ∈ s.inactive := hinactive ▸ List.mem_cons_self
            exact ((h.activate ht).push .startNext).enter heq
          · cases heq

theorem Book.taskComplete (h : Book s) (heq : s.runqueueTaskComplete t = some (s', e)) :
    Book s' := by
  unfold State.runqueueTaskComplete at heq
  split at heq
  · next ht =>
      split at heq
      · exact ((h.dequeue ht).push .complete).enter heq
      · exact (h.dequeue ht).startNext.ret heq
  · exact h.ret heq

theorem Book.taskCancel {type : Int} (h : Book s)
    (heq : s.runqueueTaskCancel t type = some (s', e)) : Book s' := by
  unfold State.runqueueTaskCancel at heq
  simp only at heq
  split at heq
  · split at heq
    · split at heq
      · cases heq
      · split at heq
        · exact (h.setTask (by rfl) (by rfl)).enter heq
        · exact (h.setTask (by rfl) (by rfl)).ret heq
    · exact h.taskComplete heq
  · exact h.ret heq

theorem Book.taskAdd {running first : Bool} (h : Book s)
    (heq : s.runqueueTaskAdd t running first = some (s', e)) : Book s' := by
  unfold State.runqueueTaskAdd at heq
  split at heq
  · exact h.ret heq
  · next ht =>
      split at heq
      · cases heq
      · split at heq
        · exact h.ret heq
        · exact (h.enqueue (by simpa using ht) running first).startNext.ret heq

theorem Book.taskKill (h : Book s) (heq : s.runqueueTaskKill t = some (s', e)) : Book s' := by
  unfold State.runqueueTaskKill at heq
  split at heq
  · exact (h.push _).taskComplete heq
  · exact h.ret heq

/-- `safe_list_for_each` leaves the lists as they are. -/
theorem lists_of_walk {lists lists' : Walks.State Side τ} {a : Walks.Action Side τ}
    {ev : Walks.Event τ} (ha : (∃ k, a = .start k) ∨ a = .next)
    (hstep : lists.step a = some (lists', ev)) : lists'.lists = lists.lists := by
  have hadvance : ∀ ws k rest, (lists.advance ws k rest).1.lists = lists.lists := by
    intro ws k rest
    cases rest <;> rfl
  rcases ha with ⟨k, rfl⟩ | rfl
  · have hfst : lists' = (lists.advance lists.walks k (lists.lists k)).1 :=
      congrArg Prod.fst (Option.some.inj hstep).symm
    rw [hfst, hadvance]
  · obtain ⟨w, ws, -, hadv⟩ := Walks.step_next hstep
    have hfst : lists' = (lists.advance ws w.key w.rest).1 := congrArg Prod.fst hadv
    rw [hfst, hadvance]

/-- A round of `safe_list_for_each`. -/
theorem Book.walk {a : Walks.Action Side τ} (h : Book s) (ha : (∃ k, a = .start k) ∨ a = .next)
    (heq : (s.lists.step a).bind s.forEachRound = some (s', e)) : Book s' := by
  obtain ⟨⟨lists, ev⟩, hstep, heq⟩ := Option.bind_eq_some_iff.mp heq
  have hallowed : Walks.Allowed sides s.lists a := by
    rcases ha with ⟨k, rfl⟩ | rfl
    · exact mem_sides k
    · obtain ⟨w, ws, hw, -⟩ := Walks.step_next hstep
      intro hnil
      rw [hw] at hnil
      cases hnil
  have hbook : Book { s with lists } :=
    h.of_same ⟨lists_of_walk ha hstep, fun _ => rfl, fun _ => rfl, rfl⟩
      (h.good.step hallowed hstep)
  cases ev with
  | visit d t => exact (hbook.push .forEach).taskCancel heq
  | finish d c => exact hbook.ret heq
  | silent => exact hbook.ret heq

theorem Book.cancelSide {side : Side} (h : Book s)
    (heq : s.runqueueCancelSide side = some (s', e)) : Book s' :=
  h.walk (.inl ⟨side, rfl⟩) heq

theorem Book.kill (h : Book s) (heq : s.runqueueKill = some (s', e)) : Book s' := by
  unfold State.runqueueKill at heq
  split at heq
  · exact (h.push .killEnd).cancelSide heq
  · exact (h.push .killLoop).taskKill heq

theorem Book.processAdd (h : Book s) (heq : s.runqueueProcessAdd t = some (s', e)) : Book s' := by
  unfold State.runqueueProcessAdd at heq
  simp only at heq
  split at heq
  · exact h.ret heq
  · split at heq
    · exact (h.setTask (by rfl) (by rfl)).ret heq
    · exact (h.setTask (by rfl) (by rfl)).taskAdd heq

theorem Book.timeout (h : Book s) (heq : s.timeout = some (s', e)) : Book s' := by
  unfold State.timeout at heq
  split at heq
  · have hoff := h.control s.stack { s.q with timeout := false } rfl
    simp only at heq
    split at heq
    · exact hoff.startNextLoop heq
    · split at heq
      · exact hoff.enter heq
      · cases heq
    · exact hoff.ret heq
  · cases heq

theorem Book.taskTimeout (h : Book s) (heq : s.taskTimeout t = some (s', e)) : Book s' := by
  unfold State.taskTimeout at heq
  simp only at heq
  split at heq
  · split at heq
    · exact (h.setTask (by rfl) (by rfl)).taskKill heq
    · exact (h.setTask (by rfl) (by rfl)).taskCancel heq
  · cases heq

theorem Book.processExit (h : Book s) (heq : s.processExit t = some (s', e)) : Book s' := by
  unfold State.processExit at heq
  simp only at heq
  split at heq
  · exact (h.setTask (by rfl) (by rfl)).taskComplete heq
  · cases heq

/-- Whatever is called. -/
theorem Book.call {a : Action τ} (h : Book s) (heq : s.call a = some (s', e)) : Book s' := by
  cases a with
  | resume => cases heq
  | ret => cases heq
  | taskAdd t running => exact h.taskAdd heq
  | taskAddFirst t running => exact h.taskAdd heq
  | taskComplete t => exact h.taskComplete heq
  | taskCancel t type => exact h.taskCancel heq
  | taskKill t => exact h.taskKill heq
  | processAdd t => exact h.processAdd heq
  | processDelete t => exact (h.setTask (by rfl) (by rfl)).ret heq
  | cancelActive => exact h.cancelSide heq
  | cancelPending => exact h.cancelSide heq
  | cancel => exact (h.push .cancelActive).cancelSide heq
  | kill => exact h.kill heq
  | stop => exact (h.control s.stack { s.q with stopped := true } rfl).ret heq
  | goOn => exact (h.control s.stack { s.q with stopped := false } rfl).startNext.ret heq
  | configure t config => exact (h.setTask (by rfl) (by rfl)).ret heq
  | setMax max => exact (h.control s.stack { s.q with maxRunningTasks := max } rfl).ret heq
  | setEmptyCb set => exact (h.control s.stack { s.q with emptyCb := set } rfl).ret heq
  | timeout => exact h.timeout heq
  | taskTimeout t => exact h.taskTimeout heq
  | processExit t => exact h.processExit heq

/-- Whatever goes on. -/
theorem Book.goOn {f : Frame τ} (h : Book s) (heq : s.goOn f = some (s', e)) : Book s' := by
  cases f with
  | user cb => cases heq
  | startNext => exact h.startNextLoop heq
  | complete => exact h.startNext.ret heq
  | kill t running => exact h.taskKillRest heq
  | killed => exact h.startNext.ret heq
  | forEach => exact h.walk (.inr rfl) heq
  | cancelActive => exact h.cancelSide heq
  | killLoop => exact h.kill heq
  | killEnd => exact (h.control s.stack { s.q with timeout := false } rfl).ret heq

/-- **One step keeps the bookkeeping.** -/
theorem Book.step {a : Action τ} (h : Book s) (heq : s.step a = some (s', e)) : Book s' := by
  unfold State.step at heq
  split at heq
  · exact (h.control _ s.q rfl).ret heq
  · exact h.call heq
  · exact h.call heq
  · exact (h.control _ s.q rfl).goOn heq
  · cases heq

/-! ## Starting tasks -/

/-- A call does not start a task. -/
def NoRun (r : Result τ) : Prop := ∀ s' t, r ≠ some (s', some (.run t))

omit [DecidableEq τ] in
theorem noRun_ret (s : State τ) : NoRun s.ret := by
  intro s' t h
  cases h

omit [DecidableEq τ] in
theorem noRun_enter {cb : Callback τ} (h : ∀ t, cb ≠ .run t) (s : State τ) :
    NoRun (s.enter cb) := by
  intro s' t heq
  cases heq
  exact h t rfl

theorem noRun_taskComplete (s : State τ) (t : τ) : NoRun (s.runqueueTaskComplete t) := by
  unfold State.runqueueTaskComplete
  split
  · split
    · exact noRun_enter (fun u h => by cases h) _
    · exact noRun_ret _
  · exact noRun_ret s

theorem noRun_taskCancel (s : State τ) (t : τ) (type : Int) :
    NoRun (s.runqueueTaskCancel t type) := by
  unfold State.runqueueTaskCancel
  simp only
  split
  · split
    · split
      · intro s' u h
        cases h
      · split
        · exact noRun_enter (fun u h => by cases h) _
        · exact noRun_ret _
    · exact noRun_taskComplete s t
  · exact noRun_ret s

theorem noRun_taskAdd (s : State τ) (t : τ) (running first : Bool) :
    NoRun (s.runqueueTaskAdd t running first) := by
  unfold State.runqueueTaskAdd
  split
  · exact noRun_ret s
  · split
    · intro s' u h
      cases h
    · split
      · exact noRun_ret s
      · exact noRun_ret _

theorem noRun_taskKill (s : State τ) (t : τ) : NoRun (s.runqueueTaskKill t) := by
  unfold State.runqueueTaskKill
  split
  · exact noRun_taskComplete _ t
  · exact noRun_ret s

theorem noRun_walk (s : State τ) (r : Option (Walks.State Side τ × Walks.Event τ)) :
    NoRun (r.bind s.forEachRound) := by
  cases r with
  | none =>
      intro s' t h
      cases h
  | some r =>
      obtain ⟨lists, ev⟩ := r
      cases ev with
      | visit d t => exact noRun_taskCancel _ t 0
      | finish d c => exact noRun_ret _
      | silent => exact noRun_ret _

theorem noRun_cancelSide (s : State τ) (side : Side) : NoRun (s.runqueueCancelSide side) :=
  noRun_walk s _

theorem noRun_kill (s : State τ) : NoRun s.runqueueKill := by
  unfold State.runqueueKill
  split
  · exact noRun_cancelSide (s.push .killEnd) .inactive
  · exact noRun_taskKill (s.push .killLoop) _

/-- The limit is looked at before a task is started. -/
theorem startNextLoop_run (h : s.startNextLoop = some (s', some (.run t))) :
    ¬(s.q.maxRunningTasks ≠ 0 ∧ s.q.maxRunningTasks ≤ s.q.runningTasks) := by
  unfold State.startNextLoop at h
  split at h
  · exact absurd h (noRun_ret _ s' t)
  · split at h
    · exact absurd h (noRun_ret _ s' t)
    · split at h
      · exact absurd h (noRun_ret _ s' t)
      · next hlimit => exact hlimit

theorem call_run {a : Action τ} (h : s.call a = some (s', some (.run t))) :
    ¬(s.q.maxRunningTasks ≠ 0 ∧ s.q.maxRunningTasks ≤ s.q.runningTasks) := by
  cases a with
  | timeout =>
      change s.timeout = _ at h
      unfold State.timeout at h
      split at h
      · simp only at h
        split at h
        · exact startNextLoop_run (s := { s with q := { s.q with timeout := false } }) h
        · split at h
          · exact absurd h (noRun_enter (fun u hu => by cases hu) _ s' t)
          · cases h
        · exact absurd h (noRun_ret _ s' t)
      · cases h
  | resume => cases h
  | ret => cases h
  | taskAdd u running => exact absurd h (noRun_taskAdd s u running false s' t)
  | taskAddFirst u running => exact absurd h (noRun_taskAdd s u running true s' t)
  | taskComplete u => exact absurd h (noRun_taskComplete s u s' t)
  | taskCancel u type => exact absurd h (noRun_taskCancel s u type s' t)
  | taskKill u => exact absurd h (noRun_taskKill s u s' t)
  | processAdd u =>
      change s.runqueueProcessAdd u = _ at h
      unfold State.runqueueProcessAdd at h
      simp only at h
      split at h
      · exact absurd h (noRun_ret _ s' t)
      · split at h
        · exact absurd h (noRun_ret _ s' t)
        · exact absurd h (noRun_taskAdd _ u true false s' t)
  | processDelete u => exact absurd h (noRun_ret _ s' t)
  | cancelActive => exact absurd h (noRun_cancelSide s _ s' t)
  | cancelPending => exact absurd h (noRun_cancelSide s _ s' t)
  | cancel => exact absurd h (noRun_cancelSide (s.push .cancelActive) _ s' t)
  | kill => exact absurd h (noRun_kill s s' t)
  | stop => exact absurd h (noRun_ret _ s' t)
  | goOn => exact absurd h (noRun_ret _ s' t)
  | configure u config => exact absurd h (noRun_ret _ s' t)
  | setMax max => exact absurd h (noRun_ret _ s' t)
  | setEmptyCb set => exact absurd h (noRun_ret _ s' t)
  | taskTimeout u =>
      change s.taskTimeout u = _ at h
      unfold State.taskTimeout at h
      simp only at h
      split at h
      · split at h
        · exact absurd h (noRun_taskKill _ u s' t)
        · exact absurd h (noRun_taskCancel _ u _ s' t)
      · cases h
  | processExit u =>
      change s.processExit u = _ at h
      unfold State.processExit at h
      simp only at h
      split at h
      · exact absurd h (noRun_taskComplete _ u s' t)
      · cases h

theorem goOn_run {f : Frame τ} (h : s.goOn f = some (s', some (.run t))) :
    ¬(s.q.maxRunningTasks ≠ 0 ∧ s.q.maxRunningTasks ≤ s.q.runningTasks) := by
  cases f with
  | startNext => exact startNextLoop_run h
  | user cb => cases h
  | complete => exact absurd h (noRun_ret _ s' t)
  | kill u running =>
      have hkill : NoRun (s.taskKillRest u running) := by
        unfold State.taskKillRest
        split
        · split
          · intro s' u hu
            cases hu
          · split
            · exact noRun_enter (fun u hu => by cases hu) _
            · exact noRun_ret _
        · exact noRun_ret _
      exact absurd h (hkill s' t)
  | killed => exact absurd h (noRun_ret _ s' t)
  | forEach => exact absurd h (noRun_walk s _ s' t)
  | cancelActive => exact absurd h (noRun_cancelSide s _ s' t)
  | killLoop => exact absurd h (noRun_kill s s' t)
  | killEnd => exact absurd h (noRun_ret _ s' t)

/-- **A task is started only below the limit.** -/
theorem step_run {a : Action τ} (h : s.step a = some (s', some (.run t))) :
    ¬(s.q.maxRunningTasks ≠ 0 ∧ s.q.maxRunningTasks ≤ s.q.runningTasks) := by
  unfold State.step at h
  split at h
  · exact absurd h (noRun_ret _ s' t)
  · exact call_run h
  · exact call_run h
  · have hgo := goOn_run h
    exact hgo
  · cases h

/-! ## Runs -/

omit [DecidableEq τ] in
theorem book_init (max : Int) (emptyCb : Bool) (config : τ → Config) :
    Book (State.init max emptyCb config) where
  good := by
    refine ⟨fun _ _ => rfl, fun _ => List.nodup_nil, ?_, ?_, ?_⟩
    · intro k k' t ht
      cases ht
    · intro w hw
      cases hw
    · intro w hw
      cases hw
  active t := by simp [State.init, State.active]
  inactive t := by simp [State.init, State.inactive]
  count := rfl

end Libubox.Runqueue
