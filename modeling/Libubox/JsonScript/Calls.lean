import Libubox.JsonScript.Script

/-!
# What the parts of the interpreter call

Everything below a command of a script: an expression looks up variables and
reports errors, the strings of a command look up variables and may report one
error, a file is asked for.  None of it runs a command or begins a run of a
file, and all of it sets the flag of `json_script_abort` as the callbacks say.
-/

namespace Libubox.JsonScript

open Bytes Blob Blobmsg Effect

variable {σ α : Type}

namespace Event

/-- The callback called `json_script_abort`. -/
def aborts : Event → Bool
  | var _ _ aborts => aborts
  | file _ aborts => aborts
  | error _ _ aborts => aborts
  | command _ _ aborts => aborts
  | _ => false

/-- A call of `handle_var`, with the strings of a command or not. -/
def isLookup (expanding : Bool) : Event → Bool
  | var _ during _ => during == expanding
  | _ => false

/-- A call of `handle_var` or `handle_error`. -/
def isQuery (expanding : Bool) : Event → Bool
  | error _ _ _ => true
  | e => e.isLookup expanding

/-- A call of `handle_file`. -/
def isFile : Event → Bool
  | file _ _ => true
  | _ => false

/-- A call of `handle_command`. -/
def isCommand : Event → Bool
  | command _ _ _ => true
  | _ => false

theorem isQuery_of_isLookup {expanding : Bool} {e : Event} (h : e.isLookup expanding = true) :
    e.isQuery expanding = true := by
  cases e <;> simp_all [isQuery, isLookup]

end Event

/-! ## What a computation adds to the trace -/

/-- From `s` to `s'` the events `t` take place. -/
structure Shows (s : Ctx σ) (t : List Event) (s' : Ctx σ) : Prop where
  trace : s'.trace = s.trace ++ t
  abort : s'.abort = (s.abort || t.any Event.aborts)

namespace Shows

variable {s s₁ s₂ s' : Ctx σ} {t u : List Event}

theorem refl (s : Ctx σ) : Shows s [] s := ⟨by simp, by simp⟩

theorem append (h : Shows s t s₁) (k : Shows s₁ u s₂) : Shows s (t ++ u) s₂ where
  trace := by rw [k.trace, h.trace, List.append_assoc]
  abort := by rw [k.abort, h.abort, List.any_append, Bool.or_assoc]

end Shows

/-- Only events `p` allows take place, and no run of a file begins. -/
def Emits (p : Event → Bool) (s s' : Ctx σ) : Prop :=
  s'.runs = s.runs ∧ ∃ t, Shows s t s' ∧ ∀ e ∈ t, p e = true

namespace Emits

variable {p q : Event → Bool}

instance : Std.Refl (Emits p : Ctx σ → Ctx σ → Prop) where
  refl s := ⟨rfl, [], Shows.refl s, by simp⟩

instance : IsTrans (Ctx σ) (Emits p) where
  trans s s₁ s₂ h k := by
    obtain ⟨hruns, t, ht, hp⟩ := h
    obtain ⟨kruns, u, hu, kp⟩ := k
    refine ⟨kruns.trans hruns, t ++ u, ht.append hu, fun e he => ?_⟩
    rcases List.mem_append.mp he with h | h
    · exact hp e h
    · exact kp e h

theorem mono {s s' : Ctx σ} (hpq : ∀ e, p e = true → q e = true) (h : Emits p s s') :
    Emits q s s' := by
  obtain ⟨hruns, t, ht, hp⟩ := h
  exact ⟨hruns, t, ht, fun e he => hpq e (hp e he)⟩

/-- One event. -/
theorem one {s s' : Ctx σ} {e : Event} (hruns : s'.runs = s.runs)
    (htrace : s'.trace = s.trace ++ [e]) (habort : s'.abort = (s.abort || e.aborts))
    (he : p e = true) : Emits p s s' :=
  ⟨hruns, [e], ⟨htrace, by simpa using habort⟩, by simpa using he⟩

/-- No event. -/
theorem none {s s' : Ctx σ} (hruns : s'.runs = s.runs) (htrace : s'.trace = s.trace)
    (habort : s'.abort = s.abort) : Emits p s s' :=
  ⟨hruns, [], ⟨by simpa using htrace, by simpa using habort⟩, by simp⟩

end Emits

/-! ## Loops and tables -/

/-- Go on with the loop unless its body left it. -/
def carryOn (rest : Script σ (Option α)) : Option α → Script σ (Option α)
  | some a => pure (some a)
  | none => rest

/-- A turn of the loop. -/
theorem forEach_turn {body : Nat → Mem → Script σ (Option α)} {i rem pad : Nat} {pos : Mem}
    (hrem : rem ≠ 0) (hpad : blobPadLen pos = some pad) (hfits : pad ≤ rem ∧ 4 ≤ pad) (fuel : Nat) :
    forEach body (fuel + 1) i pos rem =
      body i pos >>= carryOn (forEach body fuel (i + 1) (pos.drop pad) (rem - pad)) := by
  rw [forEach, if_neg hrem, hpad, need_some_bind, if_pos hfits]
  rfl

/-- The loop keeps `R`, and `E` where it ends as `q` says, if its body does. -/
theorem forEach_leads {R E : Ctx σ → Ctx σ → Prop} [Std.Refl R] [IsTrans (Ctx σ) R]
    [Std.Refl E] [IsTrans (Ctx σ) E] {q : Option (Option α) → Prop} (hq : q (some none))
    {body : Nat → Mem → Script σ (Option α)}
    (hbody : ∀ i cur, Leads (fun s o s' => R s s' ∧ (q o → E s s')) (body i cur))
    (fuel i : Nat) (pos : Mem) (rem : Nat) :
    Leads (fun s o s' => R s s' ∧ (q o → E s s')) (forEach body fuel i pos rem) := by
  induction fuel generalizing i pos rem with
  | zero => exact fun s => ⟨Std.Refl.refl s, fun _ => Std.Refl.refl s⟩
  | succ fuel ih =>
      intro s
      rw [forEach]
      by_cases hrem : rem = 0
      · rw [if_pos hrem]
        exact ⟨Std.Refl.refl s, fun _ => Std.Refl.refl s⟩
      rw [if_neg hrem]
      cases blobPadLen pos with
      | none => exact ⟨Std.Refl.refl s, fun _ => Std.Refl.refl s⟩
      | some pad =>
          rw [need_some_bind]
          by_cases hpad : pad ≤ rem ∧ 4 ≤ pad
          · rw [if_pos hpad, bind_apply]
            have hone := hbody i pos s
            rcases h : body i pos s with ⟨_ | _ | a, s'⟩
            · rw [h] at hone
              exact hone
            · rw [h] at hone
              have hrest := ih (i + 1) (pos.drop pad) (rem - pad) s'
              exact ⟨IsTrans.trans _ _ _ hone.1 hrest.1,
                fun ho => IsTrans.trans _ _ _ (hone.2 hq) (hrest.2 ho)⟩
            · rw [h] at hone
              exact hone
          · rw [if_neg hpad]
            exact ⟨Std.Refl.refl s, fun _ => Std.Refl.refl s⟩

section Moves

variable {R : Ctx σ → Ctx σ → Prop} [Std.Refl R] [IsTrans (Ctx σ) R]

theorem forEach_moves {body : Nat → Mem → Script σ (Option α)}
    (hbody : ∀ i cur, Moves R (body i cur)) (fuel i : Nat) (pos : Mem) (rem : Nat) :
    Moves R (forEach body fuel i pos rem) := by
  have h := forEach_leads (R := R) (E := R) (q := fun _ => True) trivial
    (fun i cur s => ⟨hbody i cur s, fun _ => hbody i cur s⟩) fuel i pos rem
  exact fun s => (h s).1

theorem forEachIn_moves {body : Nat → Mem → Script σ (Option α)}
    (hbody : ∀ i cur, Moves R (body i cur)) (attr : Mem) : Moves R (forEachIn body attr) :=
  (Moves.need _).bind fun start => forEach_moves hbody start.1 0 start.2 start.1

theorem jsonProcessType_moves {cur : Mem} {h : List (Mem × (Mem → Script σ Int))}
    (hentry : ∀ entry ∈ h, Moves R (entry.2 cur)) : Moves R (jsonProcessType cur h) := by
  unfold jsonProcessType
  refine (Moves.need _).bind fun name => ?_
  split
  · exact Moves.pure _
  · next entry hfind => exact (hentry entry (List.mem_of_find?_eq_some hfind)).map some

end Moves

/-! ## Callbacks -/

theorem handleVar_emits (c : Call σ) (expanding : Bool) (name : Mem) :
    Moves (Emits (Event.isLookup expanding)) (handleVar c expanding name) := fun _ =>
  Emits.one rfl rfl rfl (by simp [Event.isLookup])

theorem handleError_emits (c : Call σ) (expanding : Bool) (msg : String) (context : Mem) :
    Moves (Emits (Event.isQuery expanding)) (handleError c msg context) := by
  unfold handleError
  refine (Moves.need _).bind fun context => fun s => ?_
  exact Emits.one rfl rfl rfl rfl

theorem error_queries (c : Call σ) (expanding : Bool) (msg : String) (cur : Mem) (a : α) :
    Moves (Emits (Event.isQuery expanding)) (do handleError c msg cur; pure a) :=
  (handleError_emits c expanding msg cur).bind fun _ => Moves.pure a

theorem handleFile_emits (c : Call σ) (name : Mem) :
    Moves (Emits Event.isFile) (handleFile c name) := fun _ => Emits.one rfl rfl rfl rfl

theorem handleCommand_emits (c : Call σ) (name cmd : Mem) :
    Moves (Emits Event.isCommand) (handleCommand c name cmd) := fun _ =>
  Emits.one rfl rfl rfl rfl

theorem jsonScriptFindVar_emits (c : Call σ) (expanding : Bool) (name : Mem) :
    Moves (Emits (Event.isLookup expanding)) (jsonScriptFindVar c expanding name) := by
  unfold jsonScriptFindVar
  refine (Moves.need _).bind fun found => ?_
  cases found with
  | none => exact handleVar_emits c expanding name
  | some data => exact Moves.pure _

/-! ## Expressions -/

section Expressions

variable (c : Call σ)

theorem findVar_queries (name : Mem) :
    Moves (Emits (Event.isQuery false)) (jsonScriptFindVar c false name) :=
  (jsonScriptFindVar_emits c false name).mono fun _ _ =>
    Emits.mono fun _ => Event.isQuery_of_isLookup

theorem exprEqRegex_queries (expr : Mem) (regex : Bool) :
    Moves (Emits (Event.isQuery false)) (exprEqRegex c expr regex) := by
  unfold exprEqRegex
  refine (Moves.need _).bind fun tb => ?_
  split
  · refine (Moves.need _).bind fun name => (findVar_queries c name).bind fun var => ?_
    cases var with
    | none => exact Moves.pure _
    | some var =>
        refine (Moves.need _).bind fun type => Moves.ite ?_ (Moves.ite ?_ ?_)
        · exact (Moves.need _).bind fun eq => Moves.pure _
        · refine (forEachIn_moves (fun _ cur => ?_) _).bind fun found => Moves.pure _
          refine (Moves.need _).bind fun type => Moves.ite ?_ ?_
          · exact error_queries c false _ cur _
          · exact (Moves.need _).bind fun eq => Moves.pure _
        · exact error_queries c false _ _ _
  · exact Moves.pure _

theorem handleExprHas_queries (expr : Mem) :
    Moves (Emits (Event.isQuery false)) (handleExprHas c expr) := by
  unfold handleExprHas
  refine (Moves.need _).bind fun tb => ?_
  split
  · exact Moves.pure _
  · refine (Moves.need _).bind fun type => Moves.ite ?_ (Moves.ite ?_ ?_)
    · refine (Moves.need _).bind fun name => ?_
      exact (findVar_queries c name).bind fun var => Moves.pure _
    · refine (forEachIn_moves (fun _ cur => ?_) _).bind fun found => Moves.pure _
      refine (Moves.need _).bind fun type => Moves.ite ?_ ?_
      · exact error_queries c false _ cur _
      · refine (Moves.need _).bind fun name => ?_
        exact (findVar_queries c name).bind fun var => Moves.pure _
    · exact error_queries c false _ _ _

variable {process : Mem → Script σ Int}

theorem exprAndOr_queries (h : ∀ cur, Moves (Emits (Event.isQuery false)) (process cur))
    (expr : Mem) (and : Int) :
    Moves (Emits (Event.isQuery false)) (exprAndOr process expr and) := by
  unfold exprAndOr
  refine (forEachIn_moves (fun i cur => ?_) expr).bind fun left => Moves.pure _
  refine Moves.ite (Moves.pure _) ?_
  exact (h cur).bind fun ret => Moves.pure _

theorem handleExprNot_queries (h : ∀ cur, Moves (Emits (Event.isQuery false)) (process cur))
    (expr : Mem) : Moves (Emits (Event.isQuery false)) (handleExprNot process expr) := by
  unfold handleExprNot
  refine (Moves.need _).bind fun tb => ?_
  split
  · exact Moves.pure _
  · next tb1 _ => exact (h tb1).bind fun ret => Moves.pure _

/-- An expression only looks up variables and reports errors. -/
theorem jsonProcessExpr_queries (fuel : Nat) (cur : Mem) :
    Moves (Emits (Event.isQuery false)) (jsonProcessExpr c fuel cur) := by
  induction fuel generalizing cur with
  | zero => exact Moves.stop
  | succ fuel ih =>
      rw [jsonProcessExpr]
      refine (Moves.need _).bind fun dispatch => Moves.ite ?_ (error_queries c false _ cur _)
      refine (jsonProcessType_moves fun entry hentry => ?_).bind fun found => ?_
      · simp only [exprTable, List.mem_cons, List.not_mem_nil, or_false] at hentry
        rcases hentry with rfl | rfl | rfl | rfl | rfl | rfl
        · exact exprEqRegex_queries c cur false
        · exact exprEqRegex_queries c cur true
        · exact handleExprHas_queries c cur
        · exact exprAndOr_queries ih cur 1
        · exact exprAndOr_queries ih cur 0
        · exact handleExprNot_queries ih cur
      · cases found with
        | none => exact error_queries c false _ cur _
        | some ret => exact Moves.pure _

end Expressions

/-! ## Strings -/

section Strings

variable (c : Call σ) (expanding : Bool)

theorem segment_lookups (curVar : Bool) (str : Mem) :
    Moves (Emits (Event.isLookup expanding)) (segment c expanding curVar str) := by
  unfold segment
  refine Moves.ite (Moves.ite (Moves.pure _) ?_) (Moves.pure _)
  refine (jsonScriptFindVar_emits c expanding str).bind fun found => ?_
  cases found with
  | none => exact Moves.pure _
  | some cur => exact (Moves.need _).map some

theorem evalSegments_lookups (fuel : Nat) (b : BlobBuf) (dest : Option Nat) (len : Nat)
    (var : Bool) (next : Mem) :
    Moves (Emits (Event.isLookup expanding))
      (evalSegments c expanding fuel b dest len var next) := by
  induction fuel generalizing b dest len var next with
  | zero => exact Moves.stop
  | succ fuel ih =>
      rw [evalSegments]
      refine (segment_lookups c expanding var _).bind fun cur => ?_
      refine (Moves.need _).bind fun laid => ?_
      cases next.drop (next.takeWhile (· ≠ 37)).length with
      | nil => exact Moves.pure _
      | cons _ next => exact ih _ _ _ _ _

/-- The expansion of a string only looks up variables. -/
theorem evalString_lookups (b : BlobBuf) (name : Option Mem) (pattern : Mem) :
    Moves (Emits (Event.isLookup expanding)) (evalString c expanding b name pattern) := by
  unfold evalString
  refine (Moves.need _).bind fun start => ?_
  refine (evalSegments_lookups c expanding _ _ _ _ _ _).bind fun done => ?_
  refine (Moves.need _).bind fun dest => (Moves.need _).bind fun b => ?_
  exact (Moves.need _).bind fun b => Moves.pure _

end Strings

theorem onBuf_emits {p : Event → Bool} (f : BlobBuf → Option (α × BlobBuf)) :
    Moves (Emits p) (onBuf f : Script σ α) := by
  intro s
  unfold onBuf
  rw [state_bind]
  cases f s.buf with
  | none => exact Std.Refl.refl s
  | some r => exact Emits.none rfl rfl rfl

theorem cmdAddString_lookups (c : Call σ) (pattern : Mem) :
    Moves (Emits (Event.isLookup true)) (cmdAddString c pattern) := by
  unfold cmdAddString
  refine Moves.state.bind fun s => ?_
  refine (evalString_lookups c true _ none pattern).bind fun r => ?_
  exact fun _ => Emits.none rfl rfl rfl

section CommandStrings

/-- Lookups for the strings of a command; an error too, unless the value is as `q`
says. -/
def Expands (q : Option α → Prop) (s : Ctx σ) (o : Option α) (s' : Ctx σ) : Prop :=
  Emits (Event.isQuery true) s s' ∧ (q o → Emits (Event.isLookup true) s s')

variable {β : Type} {q : Option α → Prop} {m : Script σ α}

theorem Expands.of_lookups {s s' : Ctx σ} {o : Option α}
    (h : Emits (Event.isLookup true) s s') : Expands q s o s' :=
  ⟨h.mono fun _ => Event.isQuery_of_isLookup, fun _ => h⟩

theorem Expands.of_queries {s s' : Ctx σ} {o : Option α}
    (h : Emits (Event.isQuery true) s s') (ho : ¬ q o) : Expands q s o s' :=
  ⟨h, fun hq => absurd hq ho⟩

theorem Expands.after {s s' s'' : Ctx σ} {o : Option α}
    (h : Emits (Event.isLookup true) s s') (k : Expands q s' o s'') : Expands q s o s'' :=
  ⟨IsTrans.trans _ _ _ (h.mono fun _ => Event.isQuery_of_isLookup) k.1,
    fun ho => IsTrans.trans _ _ _ h (k.2 ho)⟩

theorem expands_of_lookups (hm : Moves (Emits (Event.isLookup true)) m) :
    Leads (Expands q) m := fun s => Expands.of_lookups (hm s)

theorem expands_bind {m : Script σ β} {f : β → Script σ α}
    (hm : Moves (Emits (Event.isLookup true)) m) (hf : ∀ b, Leads (Expands q) (f b)) :
    Leads (Expands q) (m >>= f) :=
  Leads.bind_moves hm (fun _ _ h => Expands.of_lookups h) fun _ b s' h =>
    Expands.after h (hf b s')

variable (c : Call σ) (attr : Mem)

/-- A turn of the loop of `cmd_process_strings` reports an error only where it
leaves the function, and then with a value that is not 0. -/
theorem addString_expands (pattern : Mem) :
    Leads (Expands fun o => o = some none ∨ o = some (some 0)) (do
      let ret ← cmdAddString c pattern
      if ret ≠ 0 then do
        handleError c "Unterminated variable reference in string" attr
        pure (some ret)
      else pure none) := by
  refine expands_bind (cmdAddString_lookups c pattern) fun ret => ?_
  by_cases hret : ret ≠ 0
  · rw [if_pos hret]
    intro s
    refine Expands.of_queries (error_queries c true _ attr (some ret) s) ?_
    rw [bind_apply]
    cases handleError c "Unterminated variable reference in string" attr s with
    | mk o s' =>
        cases o with
        | none => simp
        | some _ => simpa using hret
  · rw [if_neg hret]
    exact expands_of_lookups (Moves.pure none)

/-- The strings of a command: lookups, and no error where the command goes on. -/
theorem cmdProcessStrings_expands : Leads (Expands (· = some 0)) (cmdProcessStrings c attr) := by
  unfold cmdProcessStrings
  refine expands_bind (onBuf_emits _) fun _ => expands_bind (onBuf_emits _) fun cookie => ?_
  refine Leads.bind (Q := Expands fun o => o = some none ∨ o = some (some 0)) ?_
    (fun _ _ h => Expands.of_queries h.1 (by simp)) fun s left s' h => ?_
  · refine expands_bind (Moves.need _) fun start =>
      forEach_leads (Or.inl rfl) (fun args cur => ?_) _ _ _ _
    split
    · exact expands_of_lookups (Moves.pure none)
    refine expands_bind (Moves.need _) fun type => ?_
    split
    · exact expands_bind (onBuf_emits _) fun _ => expands_of_lookups (Moves.pure none)
    · exact expands_bind (Moves.need _) fun pattern => addString_expands c attr pattern
  · cases left with
    | some ret => exact ⟨h.1, fun hret => h.2 (Or.inr (by simpa using hret))⟩
    | none =>
        have hclose : Moves (Emits (Event.isLookup true)) (do
            let cookie ← need cookie
            onBuf fun b => (blobNestEnd b cookie).map fun b => ((0 : Int), b) : Script σ Int) :=
          (Moves.need _).bind fun cookie => onBuf_emits _
        exact Expands.after (h.2 (Or.inl rfl)) (Expands.of_lookups (hclose s'))

end CommandStrings

theorem forEach_yields {P : α → Prop} {body : Nat → Mem → Script σ (Option α)}
    (hbody : ∀ i cur, Yields (fun o => ∀ a, o = some a → P a) (body i cur)) (fuel i : Nat)
    (pos : Mem) (rem : Nat) :
    Yields (fun o => ∀ a, o = some a → P a) (forEach body fuel i pos rem) := by
  induction fuel generalizing i pos rem with
  | zero => exact Yields.pure fun a h => nomatch h
  | succ fuel ih =>
      rw [forEach]
      refine Yields.ite (Yields.pure fun a h => nomatch h) (Yields.after fun pad => ?_)
      refine Yields.ite ?_ (Yields.pure fun a h => nomatch h)
      refine Yields.bind (hbody i pos) fun left hleft => ?_
      cases left with
      | none => exact ih _ _ _
      | some a => exact Yields.pure hleft

theorem onBuf_yields {P : α → Prop} {f : BlobBuf → Option (α × BlobBuf)}
    (h : ∀ b r, f b = some r → P r.1) : Yields P (onBuf f : Script σ α) := by
  unfold onBuf
  refine Yields.after fun s => Yields.bind (Yields.need (h s.buf)) fun r hr => ?_
  exact Yields.after fun _ => Yields.pure hr

/-- `eval_string` returns 0 or -1. -/
theorem evalString_yields (c : Call σ) (expanding : Bool) (b : BlobBuf) (name : Option Mem)
    (pattern : Mem) :
    Yields (fun r => r.1 = 0 ∨ r.1 = -1) (evalString c expanding b name pattern) := by
  unfold evalString
  refine Yields.after fun start => Yields.after fun done => Yields.after fun dest => ?_
  refine Yields.after fun b => Yields.after fun b => Yields.pure ?_
  split
  · exact .inr rfl
  · exact .inl rfl

theorem cmdAddString_yields (c : Call σ) (pattern : Mem) :
    Yields (fun ret => ret = 0 ∨ ret = -1) (cmdAddString c pattern) := by
  unfold cmdAddString
  refine Yields.after fun s => Yields.bind (evalString_yields c true s.buf none pattern) ?_
  exact fun r hr => Yields.after fun _ => Yields.pure hr

theorem cmdProcessStrings_yields (c : Call σ) (attr : Mem) :
    Yields (fun ret => ret = 0 ∨ ret = -1) (cmdProcessStrings c attr) := by
  unfold cmdProcessStrings
  refine Yields.after fun _ => Yields.after fun cookie => ?_
  refine Yields.bind (P := fun o => ∀ ret, o = some ret → ret = 0 ∨ ret = -1) ?_ fun left hleft => ?_
  · refine Yields.after fun start => forEach_yields (fun args cur => ?_) _ _ _ _
    refine Yields.ite (Yields.pure fun ret h => nomatch h) (Yields.after fun type => ?_)
    refine Yields.ite (Yields.after fun _ => Yields.pure fun ret h => nomatch h) ?_
    refine Yields.after fun pattern => Yields.bind (cmdAddString_yields c pattern) fun ret hret => ?_
    refine Yields.ite (Yields.after fun _ => Yields.pure fun a h => ?_)
      (Yields.pure fun ret h => nomatch h)
    cases h
    exact hret
  · cases left with
    | some ret => exact Yields.pure (hleft ret rfl)
    | none =>
        refine Yields.after fun cookie => onBuf_yields fun b r hr => ?_
        obtain ⟨b', -, rfl⟩ := Option.map_eq_some_iff.mp hr
        exact .inl rfl

/-! ## Commands -/

section Commands

variable {c : Call σ} {fuel : Nat} {process : Call σ → Mem → Script σ Int} {cur name : Mem}

/-- A command of the table. -/
theorem jsonProcessCommand_known {entry : Mem × (Mem → Script σ Int)}
    (hstart : startsWithString cur = some true)
    (hname : (blobmsgData cur).bind stringAt = some name)
    (hfind : (cmdTable c fuel process).find? (fun entry => entry.1 = name) = some entry)
    (s : Ctx σ) : jsonProcessCommand c fuel process cur s =
      entry.2 cur (s.emit (.executes c.run cur)) := by
  unfold jsonProcessCommand jsonProcessType
  rw [hstart, need_some_bind, if_pos rfl, hname, need_some_bind, hfind, bind_map_left]
  exact congrFun (bind_pure (entry.2 cur)) _

/-- A command of the application. -/
theorem jsonProcessCommand_unknown (hstart : startsWithString cur = some true)
    (hname : (blobmsgData cur).bind stringAt = some name)
    (hfind : (cmdTable c fuel process).find? (fun entry => entry.1 = name) = none)
    (s : Ctx σ) : jsonProcessCommand c fuel process cur s =
      (do
        let ret ← cmdProcessStrings c cur
        if ret ≠ 0 then pure ret
        else do
          let s ← state
          handleCommand c name (blobData (s.buf.ptr s.buf.head))
          pure 0) (s.emit (.executes c.run cur)) := by
  unfold jsonProcessCommand jsonProcessType
  rw [hstart, need_some_bind, if_pos rfl, hname, need_some_bind, hfind]
  rfl

/-- What a command does: nothing, report an error, or, once it is reached, nothing,
what the table says or its strings and `handle_command`. -/
theorem jsonProcessCommand_cases {Q : Option Int × Ctx σ → Prop} {s : Ctx σ}
    (hfault : Q (none, s))
    (herror : Q ((do handleError c "Unexpected element type" cur; pure (-1)) s))
    (hreached : Q (none, s.emit (.executes c.run cur)))
    (hknown : ∀ entry ∈ cmdTable c fuel process,
      Q (entry.2 cur (s.emit (.executes c.run cur))))
    (hunknown : ∀ name, Q ((do
      let ret ← cmdProcessStrings c cur
      if ret ≠ 0 then pure ret
      else do
        let s ← state
        handleCommand c name (blobData (s.buf.ptr s.buf.head))
        pure 0) (s.emit (.executes c.run cur)))) :
    Q (jsonProcessCommand c fuel process cur s) := by
  cases hstart : startsWithString cur with
  | none =>
      unfold jsonProcessCommand
      rw [hstart]
      exact hfault
  | some dispatch =>
      cases dispatch with
      | false =>
          unfold jsonProcessCommand
          rw [hstart]
          exact herror
      | true =>
          cases hname : (blobmsgData cur).bind stringAt with
          | none =>
              unfold jsonProcessCommand jsonProcessType
              rw [hstart, need_some_bind, if_pos rfl, hname]
              exact hreached
          | some name =>
              cases hfind : (cmdTable c fuel process).find? fun entry => entry.1 = name with
              | none =>
                  rw [jsonProcessCommand_unknown hstart hname hfind]
                  exact hunknown name
              | some entry =>
                  rw [jsonProcessCommand_known hstart hname hfind]
                  exact hknown entry (List.mem_of_find?_eq_some hfind)

end Commands

theorem jsonScriptGetFile_emits (c : Call σ) (filename : Mem) :
    Moves (Emits Event.isFile) (jsonScriptGetFile c filename) := by
  unfold jsonScriptGetFile
  refine Moves.state.bind fun s => ?_
  dsimp only
  split
  · exact Moves.pure _
  · refine (handleFile_emits c filename).bind fun new => ?_
    cases new with
    | none => exact Moves.pure _
    | some new => exact fun _ => Emits.none rfl rfl rfl

end Libubox.JsonScript
