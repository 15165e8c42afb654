import Libubox.JsonScript.Calls

/-!
# Abort

Once a callback has called `json_script_abort`, the run is to have no further
command.  The flag is tested for each element of a block, and a command follows
that test after its strings are expanded; `handle_var` may abort in between.
-/

namespace Libubox.JsonScript

open Bytes Blob Blobmsg Effect

variable {σ : Type}

/-- No command after a callback that aborts. -/
def StopsOnAbort (t : List Event) : Prop :=
  ∀ pre e post, t = pre ++ e :: post → e.aborts = true → ∀ e' ∈ post, e'.isCommand = false

/-- `handle_var` aborts while the strings of a command are expanded. -/
def Event.abortsCommand : Event → Bool
  | var _ true true => true
  | _ => false

/-! ## The flag along a trace -/

/-- With the flag as it is before `t`, no command where it is set. -/
def Heeded : Bool → List Event → Prop
  | _, [] => True
  | abort, e :: t => (abort = true → e.isCommand = false) ∧ Heeded (abort || e.aborts) t

instance instDecidableHeeded : (abort : Bool) → (t : List Event) → Decidable (Heeded abort t)
  | _, [] => instDecidableTrue
  | abort, e :: t =>
      have := instDecidableHeeded (abort || e.aborts) t
      instDecidableAnd

theorem heeded_append (abort : Bool) (t u : List Event) :
    Heeded abort (t ++ u) ↔ Heeded abort t ∧ Heeded (abort || t.any Event.aborts) u := by
  induction t generalizing abort with
  | nil => simp [Heeded]
  | cons e t ih =>
      rw [List.cons_append, Heeded, ih, Heeded, List.any_cons, Bool.or_assoc]
      exact and_assoc.symm

theorem heeded_of_no_command {abort : Bool} {t : List Event}
    (h : ∀ e ∈ t, e.isCommand = false) : Heeded abort t := by
  induction t generalizing abort with
  | nil => trivial
  | cons e t ih =>
      exact ⟨fun _ => h e List.mem_cons_self, ih fun e he => h e (List.mem_cons_of_mem _ he)⟩

theorem no_command_of_heeded {t : List Event} (h : Heeded true t) :
    ∀ e ∈ t, e.isCommand = false := by
  induction t with
  | nil => exact fun e he => absurd he List.not_mem_nil
  | cons e t ih =>
      intro e' he'
      cases he' with
      | head => exact h.1 rfl
      | tail _ he' => exact ih h.2 e' he'

theorem stopsOnAbort_iff {t : List Event} : StopsOnAbort t ↔ Heeded false t := by
  constructor
  · intro h
    induction t with
    | nil => trivial
    | cons e t ih =>
        refine ⟨fun h => absurd h Bool.false_ne_true, ?_⟩
        rw [Bool.false_or]
        cases he : e.aborts with
        | true => exact heeded_of_no_command (h [] e t rfl he)
        | false => exact ih fun pre e' post ht => h (e :: pre) e' post (by rw [ht]; rfl)
  · intro h pre e post ht he
    rw [ht, heeded_append] at h
    have hpost := h.2.2
    rw [he, Bool.or_true] at hpost
    exact no_command_of_heeded hpost

/-! ## What keeps to the flag -/

/-- From `s` to `s'` no command where the flag is set, unless `handle_var` sets it
while the strings of a command are expanded. -/
def Heeds (s s' : Ctx σ) : Prop :=
  ∃ t, Shows s t s' ∧ ((∀ e ∈ t, e.abortsCommand = false) → Heeded s.abort t)

namespace Heeds

instance : Std.Refl (Heeds : Ctx σ → Ctx σ → Prop) where
  refl s := ⟨[], Shows.refl s, fun _ => trivial⟩

instance : IsTrans (Ctx σ) Heeds where
  trans s s₁ s₂ h k := by
    obtain ⟨t, ht, hlate⟩ := h
    obtain ⟨u, hu, klate⟩ := k
    refine ⟨t ++ u, ht.append hu, fun hnone => (heeded_append _ t u).mpr ⟨?_, ?_⟩⟩
    · exact hlate fun e he => hnone e (List.mem_append_left u he)
    · rw [← ht.abort]
      exact klate fun e he => hnone e (List.mem_append_right t he)

theorem of_emits {p : Event → Bool} (hp : ∀ e, p e = true → e.isCommand = false)
    {s s' : Ctx σ} (h : Emits p s s') : Heeds s s' := by
  obtain ⟨-, t, ht, hall⟩ := h
  exact ⟨t, ht, fun _ => heeded_of_no_command fun e he => hp e (hall e he)⟩

theorem of_query {expanding : Bool} {s s' : Ctx σ}
    (h : Emits (Event.isQuery expanding) s s') : Heeds s s' :=
  of_emits (fun e he => by cases e <;> simp_all [Event.isQuery, Event.isLookup, Event.isCommand]) h

theorem of_file {s s' : Ctx σ} (h : Emits Event.isFile s s') : Heeds s s' :=
  of_emits (fun e he => by cases e <;> simp_all [Event.isFile, Event.isCommand]) h

/-- No event. -/
theorem change {g : Ctx σ → Ctx σ} (htrace : ∀ s, (g s).trace = s.trace)
    (habort : ∀ s, (g s).abort = s.abort) : Moves Heeds (change g) := fun s =>
  ⟨[], ⟨by simp [htrace], by simp [habort]⟩, fun _ => trivial⟩

/-- A mark. -/
theorem emit {e : Event} (hcommand : e.isCommand = false) (haborts : e.aborts = false) :
    Moves Heeds (emit e : Script σ Unit) := fun s =>
  ⟨[e], ⟨rfl, by simp [haborts, JsonScript.emit, Ctx.emit]⟩, fun _ => ⟨fun _ => hcommand, trivial⟩⟩

end Heeds

theorem not_aborts_of_isLookup {e : Event} (h : e.isLookup true = true)
    (hnone : e.abortsCommand = false) : e.aborts = false := by
  cases e with
  | var name expanding aborts =>
      cases expanding <;> cases aborts <;>
        simp_all [Event.isLookup, Event.abortsCommand, Event.aborts]
  | _ => simp [Event.isLookup] at h

/-- The strings of a command are expanded with the flag clear, and the command
follows: only `handle_var` may have set the flag in between. -/
theorem command_heeds {c : Call σ} {name cmd : Mem} {s s' : Ctx σ} (hs : s.abort = false)
    (h : Emits (Event.isLookup true) s s') : Heeds s (handleCommand c name cmd s').2 := by
  obtain ⟨-, t, ht, hlookup⟩ := h
  have hcommand : Shows s' [.command name cmd (c.handlers.handleCommand name cmd c.vars s'.user).2]
      (handleCommand c name cmd s').2 := ⟨rfl, by simp [handleCommand, Ctx.emit, Event.aborts]⟩
  refine ⟨_, ht.append hcommand, fun hnone => (heeded_append _ _ _).mpr ⟨?_, ?_⟩⟩
  · refine heeded_of_no_command fun e he => ?_
    cases e with
    | command => cases hlookup _ he
    | _ => rfl
  · have hclear : t.any Event.aborts = false := by
      rw [List.any_eq_false]
      intro e he
      simp [not_aborts_of_isLookup (hlookup e he) (hnone e (List.mem_append_left _ he))]
    rw [hs, hclear]
    exact ⟨fun h => absurd h Bool.false_ne_true, trivial⟩

variable {c : Call σ} {process : Call σ → Mem → Script σ Int}

/-! ## Commands -/

theorem jsonProcessExpr_heeds (fuel : Nat) (cur : Mem) :
    Moves Heeds (jsonProcessExpr c fuel cur) :=
  (jsonProcessExpr_queries c fuel cur).mono fun _ _ => Heeds.of_query

theorem findVar_heeds (name : Mem) : Moves Heeds (jsonScriptFindVar c false name) :=
  (findVar_queries c name).mono fun _ _ => Heeds.of_query

theorem handleError_heeds (msg : String) (cur : Mem) : Moves Heeds (handleError c msg cur) :=
  (handleError_emits c false msg cur).mono fun _ _ => Heeds.of_query

section Handlers

variable (hprocess : ∀ c cur, Moves Heeds (process c cur))

include hprocess

theorem handleIf_heeds (fuel : Nat) (expr : Mem) :
    Moves Heeds (handleIf c fuel (process c) expr) := by
  unfold handleIf
  refine (Moves.need _).bind fun tb => ?_
  split
  · refine (jsonProcessExpr_heeds fuel _).bind fun ret => Moves.ite (Moves.pure _) ?_
    refine Moves.ite (hprocess c _) ?_
    split
    · exact Moves.pure _
    · exact hprocess c _
  · exact Moves.pure _

theorem handleCase_heeds (expr : Mem) : Moves Heeds (handleCase c (process c) expr) := by
  unfold handleCase
  refine (Moves.need _).bind fun tb => ?_
  split
  · refine (Moves.need _).bind fun name => (findVar_heeds name).bind fun var => ?_
    cases var with
    | none => exact Moves.pure _
    | some var =>
        refine (forEachIn_moves (fun i cur => ?_) _).bind fun left => Moves.pure _
        refine (Moves.need _).bind fun eq => ?_
        exact Moves.ite ((hprocess c cur).map some) (Moves.pure _)
  · exact Moves.pure _

theorem runFiles_heeds (files : List Mem) : Moves Heeds (runFiles c process files) := by
  induction files with
  | nil => exact Moves.pure _
  | cons data next ih =>
      rw [runFiles]
      refine Moves.state.bind fun s => ?_
      refine Moves.bind (Heeds.change (fun _ => rfl) fun _ => rfl) fun _ => ?_
      refine (Heeds.emit rfl rfl).bind fun _ => ?_
      exact (hprocess _ data).bind fun _ => ih

theorem jsonScriptRunAt_heeds (file : Nat) (context : Option Mem) :
    Moves Heeds (jsonScriptRunAt c process file context) := by
  unfold jsonScriptRunAt
  refine Moves.state.bind fun s => (Moves.need _).bind fun f => Moves.ite ?_ ?_
  · cases context with
    | none => exact Moves.pure _
    | some context => exact handleError_heeds _ context
  · refine Moves.bind (Heeds.change (fun _ => rfl) fun _ => rfl) fun _ => ?_
    exact runFiles_heeds hprocess _

theorem handleInclude_heeds (expr : Mem) : Moves Heeds (handleInclude c process expr) := by
  unfold handleInclude
  refine (Heeds.emit rfl rfl).bind fun _ => (Moves.need _).bind fun tb => ?_
  split
  · exact Moves.pure _
  · refine (Moves.need _).bind fun filename => ?_
    refine ((jsonScriptGetFile_emits c filename).mono fun _ _ => Heeds.of_file).bind fun f => ?_
    cases f with
    | none => exact Moves.pure _
    | some f => exact (jsonScriptRunAt_heeds hprocess f _).bind fun _ => Moves.pure _

/-- The command of a block comes with the flag clear. -/
theorem jsonProcessCommand_heeds (fuel : Nat) (cur : Mem) {s : Ctx σ} (hs : s.abort = false) :
    Heeds s (jsonProcessCommand c fuel process cur s).2 := by
  have hmark : Heeds s (s.emit (.executes c.run cur)) :=
    Heeds.emit (e := .executes c.run cur) rfl rfl s
  have hclear : (s.emit (.executes c.run cur)).abort = false := hs
  refine jsonProcessCommand_cases (Q := fun r => Heeds s r.2) (Std.Refl.refl s) ?_ hmark
    (fun entry hentry => IsTrans.trans _ _ _ hmark ?_)
    fun name => IsTrans.trans _ _ _ hmark ?_
  · exact ((handleError_heeds _ cur).bind fun _ => Moves.pure (-1 : Int)) s
  · simp only [cmdTable, List.mem_cons, List.not_mem_nil, or_false] at hentry
    rcases hentry with rfl | rfl | rfl | rfl
    · exact handleIf_heeds hprocess fuel cur _
    · exact handleCase_heeds hprocess cur _
    · exact ((Heeds.emit rfl rfl).bind fun _ => Moves.pure (-2 : Int)) _
    · exact handleInclude_heeds hprocess cur _
  · have hstrings := cmdProcessStrings_expands c cur (s.emit (.executes c.run cur))
    rw [bind_apply]
    rcases h : cmdProcessStrings c cur (s.emit (.executes c.run cur)) with ⟨_ | ret, s'⟩
    · rw [h] at hstrings
      exact Heeds.of_query hstrings.1
    · rw [h] at hstrings
      by_cases hret : ret = 0
      · subst hret
        exact command_heeds hclear (hstrings.2 rfl)
      · simp only [if_pos hret]
        exact Heeds.of_query hstrings.1

theorem blockBody_heeds (fuel : Nat) (block : Mem) (i : Nat) (cur : Mem) :
    Moves Heeds (blockBody c fuel process block i cur) := by
  intro s
  unfold blockBody
  rw [state_bind]
  by_cases hs : s.abort = true
  · rw [if_pos hs]
    exact Std.Refl.refl s
  rw [if_neg hs]
  cases blobId cur with
  | none => exact Std.Refl.refl s
  | some type =>
      rw [need_some_bind]
      by_cases hcommand : type = blobmsgTypeString ∧ i = 0
      · rw [if_pos hcommand, ← bind_pure_comp, bind_apply]
        have hclear : s.abort = false := by simpa using hs
        have hone := jsonProcessCommand_heeds (c := c) hprocess fuel block hclear
        rcases h : jsonProcessCommand c fuel process block s with ⟨_ | ret, s'⟩
        · rw [h] at hone
          exact hone
        · rw [h] at hone
          exact hone
      · rw [if_neg hcommand]
        have hrest : Moves Heeds (do
            emit (.begins c.run block cur)
            let ret ← process c cur
            emit (.ends c.run block cur ret)
            pure (if ret < -1 then some ret else none) : Script σ (Option Int)) :=
          (Heeds.emit rfl rfl).bind fun _ => (hprocess c cur).bind fun ret =>
            (Heeds.emit rfl rfl).bind fun _ => Moves.pure _
        exact hrest s

end Handlers

theorem jsonProcessCmd_heeds (fuel : Nat) (c : Call σ) (block : Mem) :
    Moves Heeds (jsonProcessCmd fuel c block) := by
  induction fuel generalizing c block with
  | zero => exact Moves.stop
  | succ fuel ih =>
      rw [jsonProcessCmd]
      refine (Moves.need _).bind fun type => Moves.ite ?_ ?_
      · exact (handleError_heeds _ block).bind fun _ => Moves.pure _
      · exact (forEachIn_moves (blockBody_heeds ih fuel block) block).bind fun left => Moves.pure _

/-! ## Runs -/

variable {fuel seq : Nat} {handlers : Handlers σ} {regex : Mem → Option (Mem → Bool)}
  {vars : Option Mem} {s : Ctx σ} {t : List Event}

/-- The first file of `json_script_run` is loaded before the flag is cleared. -/
def LoadAborts (t : List Event) : Prop := ∃ name, t.head? = some (.file name true)

theorem jsonScriptRunFile_heeded (file : Nat) :
    ∃ t, (jsonScriptRunFile fuel handlers regex vars seq file s).2.trace = s.trace ++ t ∧
      ((∀ e ∈ t, e.abortsCommand = false) → Heeded false t) := by
  obtain ⟨t, ht, hheeded⟩ := jsonScriptRunAt_heeds (c := ⟨handlers, regex, vars, seq, 0⟩)
    (jsonProcessCmd_heeds fuel) file none { s with abort := false }
  exact ⟨t, ht.trace, hheeded⟩

/-- No call, or one of `handle_file`. -/
def Loads (name : Mem) (s s' : Ctx σ) : Prop :=
  ∃ pre, s'.trace = s.trace ++ pre ∧ (pre = [] ∨ ∃ aborts, pre = [.file name aborts])

theorem jsonScriptGetFile_loads (c : Call σ) (name : Mem) :
    Moves (Loads name) (jsonScriptGetFile c name) := by
  intro s
  unfold jsonScriptGetFile
  rw [state_bind]
  dsimp only
  cases s.files.find? fun i => (s.heap[i]?.map fun f => f.key) = some name with
  | some i => exact ⟨[], (List.append_nil _).symm, .inl rfl⟩
  | none =>
      have hcall : Moves (Loads name) (handleFile c name) := fun s =>
        ⟨_, rfl, .inr ⟨(c.handlers.handleFile name s.user).2.2, rfl⟩⟩
      refine Leads.bind_moves (U := fun s _ s' => Loads name s s') hcall
        (fun s s' h => h) (fun s new s' h => ?_) s
      cases new with
      | none => exact h
      | some new => exact h

theorem heeded_load {pre u : List Event} {name : Mem}
    (hpre : pre = [] ∨ ∃ aborts, pre = [.file name aborts]) (hload : ¬LoadAborts (pre ++ u))
    (hu : Heeded false u) : Heeded false (pre ++ u) := by
  rcases hpre with rfl | ⟨aborts, rfl⟩
  · exact hu
  · cases aborts with
    | true => exact absurd ⟨name, rfl⟩ hload
    | false => exact ⟨fun h => absurd h Bool.false_ne_true, hu⟩

/-- **Abort.**  In every run of a script there is no command after a callback that
aborts, if `handle_var` does not abort while the strings of a command are expanded
and `handle_file` does not abort for the file to run. -/
theorem stopsOnAbort_of_run {start : Start}
    (hrun : (start.run fuel handlers regex vars seq s).2.trace = s.trace ++ t)
    (hcommand : ∀ e ∈ t, e.abortsCommand = false) (hload : ¬LoadAborts t) :
    StopsOnAbort t := by
  rw [stopsOnAbort_iff]
  cases start with
  | byFile file =>
      obtain ⟨u, hu, hheeded⟩ := @jsonScriptRunFile_heeded _ fuel seq handlers regex vars s file
      obtain rfl : t = u := List.append_cancel_left (hrun.symm.trans hu)
      exact hheeded hcommand
  | byName name =>
      obtain ⟨pre, hpre, hcases⟩ :=
        jsonScriptGetFile_loads ⟨handlers, regex, vars, seq, 0⟩ name s
      rw [Start.run, jsonScriptRun, bind_apply] at hrun
      rcases h : jsonScriptGetFile ⟨handlers, regex, vars, seq, 0⟩ name s with ⟨o, s₁⟩
      rw [h] at hpre hrun
      have hnone : s₁.trace = s.trace ++ t → Heeded false t := by
        intro htrace
        obtain rfl : t = pre := List.append_cancel_left (htrace.symm.trans hpre)
        simpa using heeded_load (u := []) hcases (by simpa using hload) trivial
      cases o with
      | none => exact hnone hrun
      | some found =>
          cases found with
          | none => exact hnone hrun
          | some file =>
              obtain ⟨u, hu, hheeded⟩ := @jsonScriptRunFile_heeded _ fuel seq handlers regex vars s₁ file
              rw [hpre, List.append_assoc] at hu
              obtain rfl : t = pre ++ u := List.append_cancel_left (hrun.symm.trans hu)
              exact heeded_load hcases hload
                (hheeded fun e he => hcommand e (List.mem_append_right _ he))

/-- An application with one file to load, whose `handle_command` aborts. -/
def oneFile (file : Mem) (varAborts fileAborts : Bool) : Handlers Unit where
  handleCommand := fun _ _ _ u => (u, true)
  handleVar := fun _ _ u => (some [122], u, varAborts)
  handleFile := fun name u => (some ⟨name, file, []⟩, u, fileAborts)
  handleError := fun _ _ u => (u, false)

/-- The command `["x", "%v%"]`. -/
def expandScript : Mem :=
  [0x81, 0, 0, 32, 0, 0, 0, 0, 0x83, 0, 0, 10, 0, 0, 0, 0, 120, 0, 0, 0,
    0x83, 0, 0, 12, 0, 0, 0, 0, 37, 118, 37, 0]

/-- The two commands `[["x"], ["x"]]`. -/
def twoScript : Mem :=
  [0x81, 0, 0, 48, 0, 0, 0, 0, 0x81, 0, 0, 20, 0, 0, 0, 0, 0x83, 0, 0, 10, 0, 0, 0, 0, 120, 0, 0, 0,
    0x81, 0, 0, 20, 0, 0, 0, 0, 0x83, 0, 0, 10, 0, 0, 0, 0, 120, 0, 0, 0]

/-- `handle_command` aborts at the first of two commands. -/
theorem stopsOnAbort_of_run_two :
    StopsOnAbort ((Start.byName [102]).run 4 (oneFile twoScript false false) (fun _ => none) none 1
      (initCtx () fun _ => some 0)).2.trace := by
  have htrace : (∀ e ∈ ((Start.byName [102]).run 4 (oneFile twoScript false false) (fun _ => none)
      none 1 (initCtx () fun _ => some 0)).2.trace, e.abortsCommand = false) ∧
      ((Start.byName [102]).run 4 (oneFile twoScript false false) (fun _ => none) none 1
        (initCtx () fun _ => some 0)).2.trace.head? = some (.file [102] false) := by
    decide +kernel
  refine stopsOnAbort_of_run (s := initCtx () fun _ => some 0) (List.nil_append _).symm htrace.1 ?_
  intro hload
  obtain ⟨name, hname⟩ := hload
  rw [htrace.2] at hname
  cases hname

/-- `handle_var` aborts while the strings of the command are expanded, or
`handle_file` for the file to run. -/
theorem not_stopsOnAbort :
    ¬StopsOnAbort ((Start.byName [102]).run 4 (oneFile expandScript true false) (fun _ => none)
      none 1 (initCtx () fun _ => some 0)).2.trace ∧
    ¬StopsOnAbort ((Start.byName [102]).run 4 (oneFile expandScript false true) (fun _ => none)
      none 1 (initCtx () fun _ => some 0)).2.trace := by
  rw [stopsOnAbort_iff, stopsOnAbort_iff]
  decide +kernel

end Libubox.JsonScript
