import Mathlib.Data.List.Basic

/-!
# Runs of a machine

A machine is a partial step function that takes an action and emits an event.
`run` takes a list of actions; its trace has one event for each of them, so a
place in the trace is a place in the list (`exists_of_trace`).

`Along ok` says that every step of a run meets `ok`, a condition on the state
before the step and the action.  `run_invariant` is the induction rule: what
holds at the start and is kept by every step that meets `ok` holds at the end.
`exists_opening` is the rule for "nothing bad between a closing event and the
next opening one".  `exists_run` also proves that the run does not get stuck.
-/

namespace Machine

variable {σ α ε : Type*} (step : σ → α → Option (σ × ε))

/-- The final state and the trace of a list of actions. -/
def run : σ → List α → Option (σ × List ε)
  | s, [] => some (s, [])
  | s, a :: as =>
      (step s a).bind fun r => (run r.1 as).map fun q => (q.1, r.2 :: q.2)

/-- Every step of the run of a list of actions meets `ok`. -/
def Along (ok : σ → α → Prop) : σ → List α → Prop
  | _, [] => True
  | s, a :: as => ok s a ∧ ∀ r ∈ step s a, Along ok r.1 as

instance Along.decidable (ok : σ → α → Prop) [∀ s a, Decidable (ok s a)] :
    ∀ s as, Decidable (Along step ok s as)
  | _, [] => inferInstanceAs (Decidable True)
  | s, a :: as =>
      have : ∀ r : σ × ε, Decidable (Along step ok r.1 as) := fun r => Along.decidable ok r.1 as
      inferInstanceAs (Decidable (ok s a ∧ ∀ r ∈ step s a, Along step ok r.1 as))

variable {step}

@[simp] theorem run_nil (s : σ) : run step s [] = some (s, []) := rfl

theorem run_cons (s : σ) (a : α) (as : List α) :
    run step s (a :: as) =
      (step s a).bind fun r => (run step r.1 as).map fun q => (q.1, r.2 :: q.2) := rfl

theorem run_cons_eq_some {s s' : σ} {a : α} {as : List α} {trace : List ε} :
    run step s (a :: as) = some (s', trace) ↔
      ∃ s₁ e rest, step s a = some (s₁, e) ∧ run step s₁ as = some (s', rest) ∧
        trace = e :: rest := by
  constructor
  · intro h
    obtain ⟨⟨s₁, e⟩, hstep, h⟩ := Option.bind_eq_some_iff.mp h
    obtain ⟨⟨s₂, rest⟩, hrest, h⟩ := Option.map_eq_some_iff.mp h
    cases h
    exact ⟨s₁, e, rest, hstep, hrest, rfl⟩
  · rintro ⟨s₁, e, rest, hstep, hrest, rfl⟩
    rw [run_cons, hstep, Option.bind_some, hrest, Option.map_some]

theorem run_append_eq_some {s s' : σ} {as bs : List α} {trace : List ε} :
    run step s (as ++ bs) = some (s', trace) ↔
      ∃ s₁ front back, run step s as = some (s₁, front) ∧
        run step s₁ bs = some (s', back) ∧ trace = front ++ back := by
  induction as generalizing s trace with
  | nil =>
      constructor
      · intro h
        exact ⟨s, [], trace, rfl, h, rfl⟩
      · rintro ⟨s₁, front, back, hfront, hback, rfl⟩
        cases hfront
        exact hback
  | cons a as ih =>
      rw [List.cons_append, run_cons_eq_some]
      constructor
      · rintro ⟨s₁, e, rest, hstep, hrest, rfl⟩
        obtain ⟨s₂, front, back, hfront, hback, rfl⟩ := ih.mp hrest
        exact ⟨s₂, e :: front, back,
          run_cons_eq_some.mpr ⟨s₁, e, front, hstep, hfront, rfl⟩, hback, rfl⟩
      · rintro ⟨s₂, front, back, hfront, hback, rfl⟩
        obtain ⟨s₁, e, rest, hstep, hrest, rfl⟩ := run_cons_eq_some.mp hfront
        exact ⟨s₁, e, rest ++ back, hstep, ih.mpr ⟨s₂, rest, back, hrest, hback, rfl⟩, rfl⟩

/-- A place in the trace is a step of the run. -/
theorem exists_of_trace {s s' : σ} {as : List α} {front back : List ε} {e : ε}
    (h : run step s as = some (s', front ++ e :: back)) :
    ∃ bs a cs s₁ s₂, as = bs ++ a :: cs ∧ run step s bs = some (s₁, front) ∧
      step s₁ a = some (s₂, e) ∧ run step s₂ cs = some (s', back) := by
  induction as generalizing s front with
  | nil => simp at h
  | cons a as ih =>
      obtain ⟨s₁, e₁, rest, hstep, hrest, htrace⟩ := run_cons_eq_some.mp h
      cases front with
      | nil =>
          cases htrace
          exact ⟨[], a, as, s, s₁, rfl, rfl, hstep, hrest⟩
      | cons e₀ front =>
          cases htrace
          obtain ⟨bs, b, cs, s₂, s₃, rfl, hbs, hb, hcs⟩ := ih hrest
          exact ⟨a :: bs, b, cs, s₂, s₃, rfl,
            run_cons_eq_some.mpr ⟨s₁, e₁, front, hstep, hbs, rfl⟩, hb, hcs⟩

theorem Along.append {ok : σ → α → Prop} {s s' : σ} {as bs : List α} {trace : List ε}
    (h : Along step ok s (as ++ bs)) (hrun : run step s as = some (s', trace)) :
    Along step ok s as ∧ Along step ok s' bs := by
  induction as generalizing s trace with
  | nil =>
      cases hrun
      exact ⟨trivial, h⟩
  | cons a as ih =>
      obtain ⟨s₁, e, rest, hstep, hrest, rfl⟩ := run_cons_eq_some.mp hrun
      obtain ⟨has, hbs⟩ := ih (h.2 (s₁, e) hstep) hrest
      refine ⟨⟨h.1, ?_⟩, hbs⟩
      intro r hr
      rw [hstep] at hr
      cases hr
      exact has

theorem Along.mono {ok ok' : σ → α → Prop} (himp : ∀ s a, ok s a → ok' s a) {s : σ}
    {as : List α} (h : Along step ok s as) : Along step ok' s as := by
  induction as generalizing s with
  | nil => trivial
  | cons a as ih => exact ⟨himp s a h.1, fun r hr => ih (h.2 r hr)⟩

theorem along_true (s : σ) (as : List α) : Along step (fun _ _ => True) s as := by
  induction as generalizing s with
  | nil => trivial
  | cons a as ih => exact ⟨trivial, fun r _ => ih r.1⟩

/-- **The induction rule**, for a run whose events are all `fine`. -/
theorem run_invariant_of_trace {ok : σ → α → Prop} {fine : ε → Prop} (inv : σ → Prop)
    (hkeep : ∀ s a s' e, inv s → ok s a → step s a = some (s', e) → fine e → inv s')
    {s s' : σ} {as : List α} {trace : List ε} (hinv : inv s)
    (hok : Along step ok s as) (hrun : run step s as = some (s', trace))
    (hfine : ∀ e ∈ trace, fine e) : inv s' := by
  induction as generalizing s trace with
  | nil =>
      cases hrun
      exact hinv
  | cons a as ih =>
      obtain ⟨s₁, e, rest, hstep, hrest, rfl⟩ := run_cons_eq_some.mp hrun
      have he : fine e := hfine e List.mem_cons_self
      exact ih (hkeep s a s₁ e hinv hok.1 hstep he) (hok.2 (s₁, e) hstep) hrest
        fun e' he' => hfine e' (List.mem_cons_of_mem _ he')

/-- **The induction rule.** -/
theorem run_invariant {ok : σ → α → Prop} {inv : σ → Prop}
    (hkeep : ∀ s a s' e, inv s → ok s a → step s a = some (s', e) → inv s')
    {s s' : σ} {as : List α} {trace : List ε} (hinv : inv s)
    (hok : Along step ok s as) (hrun : run step s as = some (s', trace)) : inv s' :=
  run_invariant_of_trace inv
    (fun s a s' e hs ha hstep (_ : True) => hkeep s a s' e hs ha hstep) hinv hok hrun
    fun _ _ => trivial

/-- An invariant that holds at the start is known before every step. -/
theorem Along.strengthen {ok : σ → α → Prop} {inv : σ → Prop}
    (hkeep : ∀ s a s' e, inv s → ok s a → step s a = some (s', e) → inv s')
    {s : σ} {as : List α} (hinv : inv s) (hok : Along step ok s as) :
    Along step (fun s a => inv s ∧ ok s a) s as := by
  induction as generalizing s with
  | nil => trivial
  | cons a as ih =>
      exact ⟨⟨hinv, hok.1⟩, fun r hr =>
        ih (hkeep s a r.1 r.2 hinv hok.1 hr) (hok.2 r hr)⟩

/-- **Progress.**  When every step that meets `ok` can be made, keeps a property of
the state and the events so far and emits what `rel` says of its action, so can every
run, and so does it. -/
theorem exists_run_forall₂ {ok : σ → α → Prop} {inv : σ → List ε → Prop} {rel : α → ε → Prop}
    (hstep : ∀ s past a, inv s past → ok s a →
      ∃ s' e, step s a = some (s', e) ∧ inv s' (past ++ [e]) ∧ rel a e)
    {s : σ} {past : List ε} {as : List α} (hinv : inv s past) (hok : Along step ok s as) :
    ∃ s' trace, run step s as = some (s', trace) ∧ inv s' (past ++ trace) ∧
      List.Forall₂ rel as trace := by
  induction as generalizing s past with
  | nil => exact ⟨s, [], rfl, by simpa using hinv, .nil⟩
  | cons a as ih =>
      obtain ⟨s₁, e, ha, hs₁, hrel⟩ := hstep s past a hinv hok.1
      obtain ⟨s', trace, hrun, hs', htrace⟩ := ih hs₁ (hok.2 (s₁, e) ha)
      refine ⟨s', e :: trace, run_cons_eq_some.mpr ⟨s₁, e, trace, ha, hrun, rfl⟩, ?_,
        .cons hrel htrace⟩
      rw [List.append_assoc] at hs'
      exact hs'

/-- Progress, where nothing is said of the events one by one. -/
theorem exists_run {ok : σ → α → Prop} {inv : σ → List ε → Prop}
    (hstep : ∀ s past a, inv s past → ok s a →
      ∃ s' e, step s a = some (s', e) ∧ inv s' (past ++ [e]))
    {s : σ} {past : List ε} {as : List α} (hinv : inv s past) (hok : Along step ok s as) :
    ∃ s' trace, run step s as = some (s', trace) ∧ inv s' (past ++ trace) := by
  have hstep' : ∀ s past a, inv s past → ok s a →
      ∃ s' e, step s a = some (s', e) ∧ inv s' (past ++ [e]) ∧ True := by
    intro s past a hs ha
    obtain ⟨s', e, hs', hinv'⟩ := hstep s past a hs ha
    exact ⟨s', e, hs', hinv', trivial⟩
  obtain ⟨s', trace, hrun, hs', -⟩ := @exists_run_forall₂ _ _ _ _ _ _ (fun _ _ => True) hstep'
    _ _ _ hinv hok
  exact ⟨s', trace, hrun, hs'⟩

/-- A run that starts in `quiet`, kept by every step that emits no opening
event, emits something bad only behind an opening event. -/
theorem exists_opening {ok : σ → α → Prop} {quiet : σ → Prop} {opens bad : ε → Prop}
    (hkeep : ∀ s a s' e, quiet s → ok s a → step s a = some (s', e) → ¬opens e →
      quiet s' ∧ ¬bad e)
    {s s' : σ} {as : List α} {mid back : List ε} {e : ε} (hquiet : quiet s)
    (hok : Along step ok s as) (hrun : run step s as = some (s', mid ++ e :: back))
    (hnot : ¬opens e) (hbad : bad e) : ∃ o ∈ mid, opens o := by
  induction as generalizing s mid with
  | nil => simp at hrun
  | cons a as ih =>
      obtain ⟨s₁, e₁, rest, hstep, hrest, htrace⟩ := run_cons_eq_some.mp hrun
      cases mid with
      | nil =>
          cases htrace
          exact absurd hbad (hkeep s a s₁ e hquiet hok.1 hstep hnot).2
      | cons e₀ mid =>
          cases htrace
          by_cases hopens : opens e₁
          · exact ⟨e₁, List.mem_cons_self, hopens⟩
          · obtain ⟨o, ho, hopen⟩ :=
              ih (hkeep s a s₁ e₁ hquiet hok.1 hstep hopens).1 (hok.2 (s₁, e₁) hstep) hrest
            exact ⟨o, List.mem_cons_of_mem _ ho, hopen⟩

end Machine
