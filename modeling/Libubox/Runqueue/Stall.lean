import Libubox.Runqueue.Bookkeeping

/-!
# Waiting tasks and the timer

A task that could be started is started by the timer of the queue, or by a
function that has not returned and will arm the timer or go on starting tasks:
`Steady`.  Every step keeps this but the last one of `runqueue_kill`, which
cancels the timer whatever has been added meanwhile (`not_noStall`).
-/

namespace Libubox.Runqueue

open Machine (run Along run_invariant)

variable {τ : Type*}

/-- A waiting task could be started. -/
def Startable (s : State τ) : Prop :=
  s.q.stopped = false ∧ s.inactive ≠ [] ∧
    (s.q.maxRunningTasks = 0 ∨ s.q.runningTasks < s.q.maxRunningTasks)

/-- The timer is pending with `__runqueue_start_next`. -/
def Armed (s : State τ) : Prop := s.q.timeout = true ∧ s.q.cb = some .startNext

instance (s : State τ) : Decidable (Armed s) := inferInstanceAs (Decidable (_ ∧ _))

instance [DecidableEq τ] (s : State τ) : Decidable (Startable s) :=
  inferInstanceAs (Decidable (_ ∧ _))

/-- A function that goes on starting tasks or calls `runqueue_start_next`. -/
def Frame.Rearms : Frame τ → Bool
  | .startNext | .complete | .kill _ _ | .killed => true
  | .user _ | .forEach | .cancelActive | .killLoop | .killEnd => false

/-- The limit is changed. -/
def Action.SetsMax : Action τ → Bool
  | .setMax _ => true
  | _ => false

/-- An empty queue has no tasks, and a task that could be started will be. -/
structure Steady (s : State τ) : Prop where
  idle : s.q.empty = true → s.active = [] ∧ s.inactive = []
  live : Startable s → Armed s ∨ ∃ f ∈ s.stack, f.Rearms = true

variable {s s' : State τ} {e : Option (Callback τ)} {t : τ}

/-- Only the queue, the lists and the stack matter. -/
theorem Steady.congr (h : Steady s) (hq : s'.q = s.q) (hlists : s'.lists.lists = s.lists.lists)
    (hstack : s'.stack = s.stack) : Steady s' where
  idle := by
    rw [State.active, State.inactive, hq, hlists]
    exact h.idle
  live := by
    rw [Startable, Armed, State.inactive, hq, hlists, hstack]
    exact h.live

theorem Steady.push (h : Steady s) (f : Frame τ) : Steady (s.push f) where
  idle := h.idle
  live hs := by
    rcases h.live hs with harmed | ⟨g, hg, hrearms⟩
    · exact .inl harmed
    · exact .inr ⟨g, List.mem_cons_of_mem f hg, hrearms⟩

/-- A function that will arm the timer is called. -/
theorem steady_push {f : Frame τ} (hidle : s.q.empty = true → s.active = [] ∧ s.inactive = [])
    (hf : f.Rearms = true) : Steady (s.push f) where
  idle := hidle
  live _ := .inr ⟨f, List.mem_cons_self, hf⟩

theorem Steady.ret (h : Steady s) (heq : s.ret = some (s', e)) : Steady s' := by
  cases heq
  exact h

theorem Steady.enter {cb : Callback τ} (h : Steady s) (heq : s.enter cb = some (s', e)) :
    Steady s' := by
  cases heq
  exact h.push (.user cb)

/-- `runqueue_start_next` arms the timer when there is a task. -/
theorem steady_startNext (hidle : s.q.empty = true → s.active = [] ∧ s.inactive = []) :
    Steady s.runqueueStartNext := by
  unfold State.runqueueStartNext
  split
  · next hempty => exact ⟨hidle, fun hs => absurd (hidle hempty).2 hs.2.1⟩
  · exact ⟨hidle, fun _ => .inl ⟨rfl, rfl⟩⟩

/-- The loop of `__runqueue_start_next` ends when nothing can be started. -/
theorem steady_startNextEnd (hidle : s.q.empty = true → s.active = [] ∧ s.inactive = [])
    (hstuck : ¬Startable s) : Steady s.startNextEnd := by
  unfold State.startNextEnd
  split
  · next hempty =>
      have hnone : s.active = [] ∧ s.inactive = [] := hempty.2
      split
      · exact ⟨fun _ => hnone, fun hs => absurd hnone.2 hs.2.1⟩
      · exact ⟨fun _ => hnone, fun hs => absurd hnone.2 hs.2.1⟩
  · exact ⟨hidle, fun hs => absurd hs hstuck⟩

theorem steady_taskKillRest {running : Bool} [DecidableEq τ]
    (hidle : s.q.empty = true → s.active = [] ∧ s.inactive = [])
    (heq : s.taskKillRest t running = some (s', e)) : Steady s' := by
  unfold State.taskKillRest at heq
  split at heq
  · split at heq
    · cases heq
    · split at heq
      · exact (steady_push (f := .killed) hidle rfl).enter heq
      · exact (steady_startNext hidle).ret heq
  · exact (steady_startNext hidle).ret heq

/-- A function that does not arm the timer is taken off the stack. -/
theorem Steady.pop {f : Frame τ} {rest : List (Frame τ)} (h : Steady s)
    (hstack : s.stack = f :: rest) (hf : f.Rearms = false) : Steady { s with stack := rest } where
  idle := h.idle
  live hs := by
    rcases h.live hs with harmed | ⟨g, hg, hrearms⟩
    · exact .inl harmed
    · rw [hstack] at hg
      rcases List.mem_cons.mp hg with rfl | hg
      · rw [hf] at hrearms
        cases hrearms
      · exact .inr ⟨g, hg, hrearms⟩

variable [DecidableEq τ]

theorem steady_startNextLoop (hidle : s.q.empty = true → s.active = [] ∧ s.inactive = [])
    (heq : s.startNextLoop = some (s', e)) : Steady s' := by
  unfold State.startNextLoop at heq
  split at heq
  · next hstopped =>
      refine (steady_startNextEnd hidle fun hs => ?_).ret heq
      rw [hs.1] at hstopped
      cases hstopped
  · split at heq
    · next hnone => exact (steady_startNextEnd hidle fun hs => hs.2.1 hnone).ret heq
    · next t rest hinactive =>
        split at heq
        · next hlimit =>
            refine (steady_startNextEnd hidle fun hs => ?_).ret heq
            rcases hs.2.2 with hzero | hlt
            · exact hlimit.1 hzero
            · exact absurd hlimit.2 (Int.not_le.mpr hlt)
        · split at heq
          · have hempty : ¬s.q.empty = true := by
              intro hempty
              rw [(hidle hempty).2] at hinactive
              cases hinactive
            exact (steady_push (s := s.activate t) (f := .startNext)
              (fun h => absurd h hempty) rfl).enter heq
          · cases heq

theorem idle_dequeue (hidle : s.q.empty = true → s.active = [] ∧ s.inactive = []) :
    (s.dequeue t).q.empty = true → (s.dequeue t).active = [] ∧ (s.dequeue t).inactive = [] := by
  intro hempty
  have hq : (s.dequeue t).q.empty = s.q.empty := by
    change (if (s.task t).running then _ else s.q : Queue).empty = _
    split <;> rfl
  obtain ⟨hactive, hinactive⟩ := hidle (hq ▸ hempty)
  constructor
  · change s.active.filter (· ≠ t) = []
    rw [hactive]
    rfl
  · change s.inactive.filter (· ≠ t) = []
    rw [hinactive]
    rfl

/-! ## The functions -/

theorem Steady.taskComplete (h : Steady s) (heq : s.runqueueTaskComplete t = some (s', e)) :
    Steady s' := by
  unfold State.runqueueTaskComplete at heq
  split at heq
  · split at heq
    · exact (steady_push (f := .complete) (idle_dequeue h.idle) rfl).enter heq
    · exact (steady_startNext (idle_dequeue h.idle)).ret heq
  · exact h.ret heq

theorem Steady.setTask (h : Steady s) (v : Task) : Steady (s.setTask t v) :=
  h.congr rfl rfl rfl

theorem Steady.taskCancel {type : Int} (h : Steady s)
    (heq : s.runqueueTaskCancel t type = some (s', e)) : Steady s' := by
  unfold State.runqueueTaskCancel at heq
  simp only at heq
  split at heq
  · split at heq
    · split at heq
      · cases heq
      · split at heq
        · exact (h.setTask _).enter heq
        · exact (h.setTask _).ret heq
    · exact h.taskComplete heq
  · exact h.ret heq

theorem Steady.taskAdd {running first : Bool} (h : Steady s)
    (heq : s.runqueueTaskAdd t running first = some (s', e)) : Steady s' := by
  unfold State.runqueueTaskAdd at heq
  split at heq
  · exact h.ret heq
  · split at heq
    · cases heq
    · split at heq
      · exact h.ret heq
      · refine (steady_startNext (s := s.enqueue t running first) fun hempty => ?_).ret heq
        cases hempty

theorem Steady.taskKill (h : Steady s) (heq : s.runqueueTaskKill t = some (s', e)) :
    Steady s' := by
  unfold State.runqueueTaskKill at heq
  split at heq
  · exact (h.push _).taskComplete heq
  · exact h.ret heq

theorem Steady.walk {a : Walks.Action Side τ} (h : Steady s)
    (ha : (∃ k, a = .start k) ∨ a = .next)
    (heq : (s.lists.step a).bind s.forEachRound = some (s', e)) : Steady s' := by
  obtain ⟨⟨lists, ev⟩, hstep, heq⟩ := Option.bind_eq_some_iff.mp heq
  have hsteady : Steady { s with lists } := h.congr rfl (lists_of_walk ha hstep) rfl
  cases ev with
  | visit d t => exact (hsteady.push .forEach).taskCancel heq
  | finish d c => exact hsteady.ret heq
  | silent => exact hsteady.ret heq

theorem Steady.cancelSide {side : Side} (h : Steady s)
    (heq : s.runqueueCancelSide side = some (s', e)) : Steady s' :=
  h.walk (.inl ⟨side, rfl⟩) heq

theorem Steady.kill (h : Steady s) (heq : s.runqueueKill = some (s', e)) : Steady s' := by
  unfold State.runqueueKill at heq
  split at heq
  · exact (h.push .killEnd).cancelSide heq
  · exact (h.push .killLoop).taskKill heq

theorem Steady.processAdd (h : Steady s) (heq : s.runqueueProcessAdd t = some (s', e)) :
    Steady s' := by
  unfold State.runqueueProcessAdd at heq
  simp only at heq
  split at heq
  · exact h.ret heq
  · split at heq
    · exact (h.setTask _).ret heq
    · exact (h.setTask _).taskAdd heq

theorem Steady.timeout (h : Steady s) (heq : s.timeout = some (s', e)) : Steady s' := by
  unfold State.timeout at heq
  split at heq
  · simp only at heq
    -- with another callback the timer was not the one that starts tasks
    have hoff : s.q.cb ≠ some .startNext →
        Steady { s with q := { s.q with timeout := false } } := by
      intro hcb
      refine ⟨h.idle, fun hs => ?_⟩
      rcases h.live hs with harmed | hpending
      · exact absurd harmed.2 hcb
      · exact .inr hpending
    split at heq
    · exact steady_startNextLoop (s := { s with q := { s.q with timeout := false } }) h.idle heq
    · next hcb =>
        split at heq
        · exact (hoff (by rw [hcb]; exact fun hne => by cases hne)).enter heq
        · cases heq
    · next hcb => exact (hoff (by rw [hcb]; exact fun hne => by cases hne)).ret heq
  · cases heq

theorem Steady.taskTimeout (h : Steady s) (heq : s.taskTimeout t = some (s', e)) : Steady s' := by
  unfold State.taskTimeout at heq
  simp only at heq
  split at heq
  · split at heq
    · exact (h.setTask _).taskKill heq
    · exact (h.setTask _).taskCancel heq
  · cases heq

theorem Steady.processExit (h : Steady s) (heq : s.processExit t = some (s', e)) : Steady s' := by
  unfold State.processExit at heq
  simp only at heq
  split at heq
  · exact (h.setTask _).taskComplete heq
  · cases heq

/-- Whatever is called, for a limit that stays as it is. -/
theorem Steady.call {a : Action τ} (h : Steady s) (hmax : a.SetsMax = false)
    (heq : s.call a = some (s', e)) : Steady s' := by
  cases a with
  | resume => cases heq
  | ret => cases heq
  | taskAdd t running => exact h.taskAdd heq
  | taskAddFirst t running => exact h.taskAdd heq
  | taskComplete t => exact h.taskComplete heq
  | taskCancel t type => exact h.taskCancel heq
  | taskKill t => exact h.taskKill heq
  | processAdd t => exact h.processAdd heq
  | processDelete t => exact (h.setTask _).ret heq
  | cancelActive => exact h.cancelSide heq
  | cancelPending => exact h.cancelSide heq
  | cancel => exact (h.push .cancelActive).cancelSide heq
  | kill => exact h.kill heq
  | stop =>
      have hstop : Steady s.runqueueStop := by
        refine ⟨h.idle, fun hs => ?_⟩
        cases hs.1
      exact hstop.ret heq
  | goOn =>
      exact (steady_startNext (s := { s with q := { s.q with stopped := false } }) h.idle).ret heq
  | configure t config => exact (h.setTask _).ret heq
  | setMax max => cases hmax
  | setEmptyCb set =>
      have hset : Steady { s with q := { s.q with emptyCb := set } } := ⟨h.idle, h.live⟩
      exact hset.ret heq
  | timeout => exact h.timeout heq
  | taskTimeout t => exact h.taskTimeout heq
  | processExit t => exact h.processExit heq

/-! ## Runs -/

/-- `max_running_tasks` stays as it is, and when `runqueue_kill` cancels the timer,
no waiting task could be started unless a function outside it will arm it again. -/
def Fits (s : State τ) (a : Action τ) : Prop :=
  a.SetsMax = false ∧
    (s.stack.head? = some .killEnd → Startable s → ∃ f ∈ s.stack.tail, f.Rearms = true)

instance (s : State τ) (a : Action τ) : Decidable (Fits s a) :=
  inferInstanceAs (Decidable (_ ∧ _))

/-- Whatever goes on. -/
theorem Steady.goOn {f : Frame τ} {rest : List (Frame τ)} (h : Steady s)
    (hstack : s.stack = f :: rest)
    (hok : f = .killEnd → Startable s → ∃ f ∈ rest, f.Rearms = true)
    (heq : ({ s with stack := rest } : State τ).goOn f = some (s', e)) : Steady s' := by
  cases f with
  | user cb => cases heq
  | startNext => exact steady_startNextLoop (s := { s with stack := rest }) h.idle heq
  | complete => exact (steady_startNext (s := { s with stack := rest }) h.idle).ret heq
  | kill t running => exact steady_taskKillRest (s := { s with stack := rest }) h.idle heq
  | killed => exact (steady_startNext (s := { s with stack := rest }) h.idle).ret heq
  | forEach => exact (h.pop hstack rfl).walk (.inr rfl) heq
  | cancelActive => exact (h.pop hstack rfl).cancelSide heq
  | killLoop => exact (h.pop hstack rfl).kill heq
  | killEnd =>
      have hend : Steady { s with stack := rest, q := { s.q with timeout := false } } :=
        ⟨h.idle, fun hs => .inr (hok rfl hs)⟩
      exact hend.ret heq

/-- **One step keeps the timer armed where it has to be.** -/
theorem Steady.step {a : Action τ} (h : Steady s) (hok : Fits s a)
    (heq : s.step a = some (s', e)) : Steady s' := by
  unfold State.step at heq
  split at heq
  · next hstack => exact (h.pop hstack rfl).ret heq
  · exact h.call hok.1 heq
  · exact h.call hok.1 heq
  · next hstack =>
      refine h.goOn hstack ?_ heq
      intro hend hs
      have hlast := hok.2 (by rw [hstack, hend, List.head?_cons]) hs
      rwa [hstack] at hlast
  · cases heq

/-- The queue does not stall in any run with a fixed limit. -/
def NoStall (τ : Type*) [DecidableEq τ] : Prop :=
  ∀ (max : Int) (emptyCb : Bool) (config : τ → Config) (acts : List (Action τ)) (s : State τ)
    (trace : List (Option (Callback τ))), (∀ a ∈ acts, a.SetsMax = false) →
    run State.step (.init max emptyCb config) acts = some (s, trace) → s.stack = [] →
    Startable s → Armed s

/-- A task that is configured to run, to be cancelled, to be killed and to complete. -/
def killable : Config := ⟨some ⟨true, true, true⟩, true, 0, 0, 0⟩

end Libubox.Runqueue
