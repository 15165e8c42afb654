import Libubox.JsonScript.Twins

/-!
# The values of expressions

An expression is true, false or an error, and in a well-formed message and with
well-formed variables it has a value.  The recursion is bounded by the length of
the expression.
-/

namespace Libubox.JsonScript

open Bytes Blob Blobmsg Effect

variable {σ α : Type}

/-- An error, false or true. -/
def IsTruth (ret : Int) : Prop := ret = -1 ∨ ret = 0 ∨ ret = 1

section Yields

variable (c : Call σ)

theorem isTruth_ite (b : Bool) : IsTruth (if b then 1 else 0) := by
  cases b
  · exact .inr (.inl rfl)
  · exact .inr (.inr rfl)

theorem isTruth_getD {o : Option Int} {and : Int} (h : ∀ ret, o = some ret → IsTruth ret)
    (hand : IsTruth and) : IsTruth (o.getD and) := by
  cases o with
  | none => exact hand
  | some ret => exact h ret rfl

theorem error_yields {P : α → Prop} (msg : String) (cur : Mem) {a : α} (ha : P a) :
    Yields P (do handleError c msg cur; pure a) :=
  Yields.after fun _ => Yields.pure ha

theorem exprEqRegex_yields (expr : Mem) (regex : Bool) :
    Yields IsTruth (exprEqRegex c expr regex) := by
  unfold exprEqRegex
  refine Yields.after fun tb => ?_
  split
  · refine Yields.after fun name => Yields.after fun var => ?_
    cases var with
    | none => exact Yields.pure (.inr (.inl rfl))
    | some var =>
        refine Yields.after fun type => Yields.ite ?_ (Yields.ite ?_ ?_)
        · exact Yields.after fun eq => Yields.pure (isTruth_ite eq)
        · refine Yields.bind (P := fun o => ∀ ret, o = some ret → IsTruth ret) ?_
            fun found hfound => Yields.pure (isTruth_getD hfound (.inr (.inl rfl)))
          refine Yields.after fun start => forEach_yields (fun i cur => ?_) _ _ _ _
          refine Yields.after fun type => Yields.ite ?_ ?_
          · exact error_yields c _ cur fun ret h => .inl (Option.some.inj h).symm
          · refine Yields.after fun eq => Yields.pure fun ret h => ?_
            cases eq with
            | false => cases h
            | true => exact .inr (.inr (Option.some.inj h).symm)
        · exact error_yields c _ _ (.inl rfl)
  · exact Yields.pure (.inl rfl)

theorem handleExprHas_yields (expr : Mem) : Yields IsTruth (handleExprHas c expr) := by
  unfold handleExprHas
  refine Yields.after fun tb => ?_
  split
  · exact Yields.pure (.inl rfl)
  · refine Yields.after fun type => Yields.ite ?_ (Yields.ite ?_ ?_)
    · exact Yields.after fun name => Yields.after fun var => Yields.pure (isTruth_ite var.isSome)
    · refine Yields.bind (P := fun o => ∀ ret, o = some ret → IsTruth ret) ?_
        fun found hfound => Yields.pure (isTruth_getD hfound (.inr (.inl rfl)))
      refine Yields.after fun start => forEach_yields (fun i cur => ?_) _ _ _ _
      refine Yields.after fun type => Yields.ite ?_ ?_
      · exact error_yields c _ cur fun ret h => .inl (Option.some.inj h).symm
      · refine Yields.after fun name => Yields.after fun var => Yields.pure fun ret h => ?_
        cases var with
        | none => cases h
        | some _ => exact .inr (.inr (Option.some.inj h).symm)
    · exact error_yields c _ _ (.inl rfl)

variable {process : Mem → Script σ Int} (hprocess : ∀ cur, Yields IsTruth (process cur))

include hprocess

theorem exprAndOr_yields (expr : Mem) {and : Int} (hand : IsTruth and) :
    Yields IsTruth (exprAndOr process expr and) := by
  unfold exprAndOr
  refine Yields.bind (P := fun o => ∀ ret, o = some ret → IsTruth ret) ?_
    fun left hleft => Yields.pure (isTruth_getD hleft hand)
  refine Yields.after fun start => forEach_yields (fun i cur => ?_) _ _ _ _
  refine Yields.ite (Yields.pure fun ret h => nomatch h) ?_
  refine Yields.bind (hprocess cur) fun ret hret => Yields.pure fun ret' h => ?_
  split at h
  · exact Option.some.inj h ▸ hret
  · split at h
    · exact Option.some.inj h ▸ hret
    · cases h

theorem handleExprNot_yields (expr : Mem) : Yields IsTruth (handleExprNot process expr) := by
  unfold handleExprNot
  refine Yields.after fun tb => ?_
  split
  · exact Yields.pure (.inl rfl)
  · next tb1 _ =>
      refine Yields.bind (hprocess tb1) fun ret hret => Yields.pure ?_
      split
      · exact hret
      · split
        · exact .inr (.inr rfl)
        · exact .inr (.inl rfl)

end Yields

/-- **An expression is true, false or an error.** -/
theorem jsonProcessExpr_yields (c : Call σ) (fuel : Nat) (cur : Mem) :
    Yields IsTruth (jsonProcessExpr c fuel cur) := by
  induction fuel generalizing cur with
  | zero => exact Yields.stop
  | succ fuel ih =>
      rw [jsonProcessExpr]
      refine Yields.after fun dispatch => Yields.ite ?_ (error_yields c _ cur (.inl rfl))
      refine Yields.bind (P := fun o => ∀ ret, o = some ret → IsTruth ret) ?_ fun found hfound => ?_
      · unfold jsonProcessType
        refine Yields.after fun name => ?_
        split
        · exact Yields.pure fun ret h => absurd h (Option.some_ne_none ret).symm
        · next entry hfind =>
            have hmem := List.mem_of_find?_eq_some hfind
            have hentry : Yields IsTruth (entry.2 cur) := by
              simp only [exprTable, List.mem_cons, List.not_mem_nil, or_false] at hmem
              rcases hmem with rfl | rfl | rfl | rfl | rfl | rfl
              · exact exprEqRegex_yields c cur false
              · exact exprEqRegex_yields c cur true
              · exact handleExprHas_yields c cur
              · exact exprAndOr_yields ih cur (.inr (.inr rfl))
              · exact exprAndOr_yields ih cur (.inr (.inl rfl))
              · exact handleExprNot_yields ih cur
            exact hentry.map some fun ret hret ret' h => Option.some.inj h ▸ hret
      · cases found with
        | none => exact error_yields c _ cur (.inl rfl)
        | some ret => exact Yields.pure (hfound ret rfl)

/-! ## Evaluation ends -/

/-- Memory of which an empty array in front of it can be dispatched. -/
def Peekable (t : Mem) : Prop :=
  ∃ type, blobId t = some type ∧ (type = blobmsgTypeString → ∃ str, stringAt t = some str)

/-- The memory from an element on, which has at most `n` bytes. -/
def Held (n : Nat) (e : Element) (m : Mem) : Prop :=
  ∃ b t, Holds [e] b ∧ b.length ≤ n ∧ Peekable t ∧ m = b ++ t

theorem peekable_holds {e : Element} {es : List Element} {b : Mem} (h : Holds (e :: es) b)
    (t : Mem) : Peekable (b ++ t) := by
  obtain ⟨front, tail, rfl, hfront, -⟩ := h.cut
  rw [List.append_assoc]
  refine ⟨e.type, hfront.blobId_eq _, fun he => ?_⟩
  obtain ⟨str, -, hstr⟩ := stringAt_holds hfront he
  exact ⟨str, hstr _⟩

theorem places_held {es : List Element} {bs t : Mem} (h : Holds es bs) (ht : Peekable t) :
    ∀ p ∈ places es (bs ++ t), Held bs.length p.1 p.2 := by
  induction es generalizing bs with
  | nil =>
      intro p hp
      cases hp
  | cons e es ih =>
      intro p hp
      obtain ⟨front, tail, rfl, hfront, htail⟩ := h.cut
      rw [List.append_assoc, places_cons hfront] at hp
      cases hp with
      | head =>
          refine ⟨front, tail ++ t, hfront, ?_, ?_, rfl⟩
          · rw [List.length_append]
            exact Nat.le_add_right _ _
          · cases es with
            | nil =>
                cases htail
                exact ht
            | cons e' es => exact peekable_holds htail t
      | tail _ hp =>
          obtain ⟨b, u, hb, hlen, hu, hm⟩ := ih htail p hp
          refine ⟨b, u, hb, ?_, hu, hm⟩
          rw [List.length_append]
          omega

theorem slot_pick_mem {ps : List (Element × Mem)} {types : List Nat} {k : Nat} {m : Mem}
    (h : slot (pick types ps) k = some m) :
    ∃ e, (e, m) ∈ ps ∧ (types.getD k 0 = blobmsgTypeUnspec ∨ e.type = types.getD k 0) := by
  induction ps generalizing types k with
  | nil =>
      rw [pick_nil, slot, List.getElem?_map] at h
      cases hk : types[k]? with
      | none => simp [hk] at h
      | some type => simp [hk] at h
  | cons p ps ih =>
      obtain ⟨e, m'⟩ := p
      cases types with
      | nil => simp [pick, slot] at h
      | cons type types =>
          rw [pick] at h
          by_cases htype : type = blobmsgTypeUnspec ∨ e.type = type
          · rw [if_pos htype] at h
            cases k with
            | zero =>
                rw [slot_cons_zero, Option.some.injEq] at h
                exact ⟨e, h ▸ List.mem_cons_self, htype⟩
            | succ k =>
                rw [slot_cons_succ] at h
                obtain ⟨e', hmem, he'⟩ := ih h
                exact ⟨e', List.mem_cons_of_mem _ hmem, he'⟩
          · rw [if_neg htype] at h
            obtain ⟨e', hmem, he'⟩ := ih h
            exact ⟨e', List.mem_cons_of_mem _ hmem, he'⟩

theorem loopOver_returns {body : Nat → Mem → Script σ (Option α)} {ms : List Mem}
    (h : ∀ i, ∀ m ∈ ms, Returns (body i m)) (i : Nat) : Returns (loopOver body i ms) := by
  induction ms generalizing i with
  | nil => exact Returns.pure none
  | cons m ms ih =>
      rw [loopOver]
      refine (h i m List.mem_cons_self).bind fun left => ?_
      cases left with
      | none => exact ih (fun i m' hm' => h i m' (List.mem_cons_of_mem m hm')) (i + 1)
      | some a => exact Returns.pure (some a)

namespace Held

variable {n : Nat} {e : Element} {m : Mem} (h : Held n e m)

include h

theorem blobId_eq : blobId m = some e.type := by
  obtain ⟨b, t, hb, -, -, rfl⟩ := h
  exact hb.blobId_eq t

theorem stringAt (he : e.type = blobmsgTypeString) :
    ∃ str, 0 ∉ str ∧ JsonScript.stringAt m = some str := by
  obtain ⟨b, t, hb, -, -, rfl⟩ := h
  obtain ⟨str, hzero, hstr⟩ := stringAt_holds hb he
  exact ⟨str, hzero, hstr t⟩

theorem error_returns (c : Call σ) (msg : String) (a : α) :
    Returns (do handleError c msg m; pure a) := by
  obtain ⟨b, t, hb, -, -, rfl⟩ := h
  intro s
  rw [handleError, ownBytes_holds hb]
  exact ⟨a, _, rfl⟩

/-- The elements of an array. -/
theorem exists_isArray (he : e.type = blobmsgTypeArray) :
    ∃ b inner t children, m = b ++ t ∧ IsArray inner b ∧ Holds children inner ∧
      inner.length < n ∧ Peekable t := by
  obtain ⟨b, t, hb, hlen, ht, rfl⟩ := h
  obtain ⟨name, children, rfl⟩ : ∃ name children, e = .nest true name children :=
    hb.nest_of_type he
  obtain ⟨inner, harray, hinner⟩ := JsonScript.exists_isArray hb
  have := harray.length_lt
  exact ⟨b, inner, t, children, rfl, harray, hinner, by omega, ht⟩

theorem forEachIn_returns (he : e.type = blobmsgTypeArray)
    {body : Nat → Mem → Script σ (Option α)}
    (hbody : ∀ k i e' m', k < n → Held k e' m' → Returns (body i m')) :
    Returns (forEachIn body m) := by
  obtain ⟨b, inner, t, children, rfl, harray, hinner, hlen, ht⟩ := h.exists_isArray he
  rw [harray.forEachIn_eq body hinner]
  refine loopOver_returns (fun i m' hm' => ?_) 0
  obtain ⟨p, hp, rfl⟩ := List.mem_map.mp hm'
  exact hbody inner.length i p.1 p.2 hlen (places_held hinner ht p hp)

/-- The tuple at the start of an array. -/
theorem parseTuple_some (he : e.type = blobmsgTypeArray) (types : List Nat) (htypes : types ≠ []) :
    ∃ tb, parseTuple types m = some tb ∧ ∀ k m', slot tb k = some m' → ∃ k' e', k' < n ∧
      Held k' e' m' ∧ (types.getD k 0 = blobmsgTypeUnspec ∨ e'.type = types.getD k 0) := by
  obtain ⟨b, inner, t, children, rfl, harray, hinner, hlen, ht⟩ := h.exists_isArray he
  refine ⟨_, harray.parseTuple_eq htypes hinner t, fun k m' hslot => ?_⟩
  obtain ⟨e', hmem, he'⟩ := slot_pick_mem hslot
  exact ⟨inner.length, e', hlen, places_held hinner ht (e', m') hmem, he'⟩

end Held

section Returns

variable {c : Call σ} {vars : List Element} (hvars : HoldsVars vars c.vars)

include hvars

theorem jsonScriptFindVar_returns (expanding : Bool) {name : Mem} (hname : 0 ∉ name) :
    Returns (jsonScriptFindVar c expanding name) := by
  intro s
  obtain ⟨found, hfound, -⟩ := @jsonScriptFindVar_eq _ _ _ expanding _ hvars hname s
  exact ⟨found, _, hfound⟩

/-- The value of a variable is a string. -/
theorem cString_of_jsonScriptFindVar {expanding : Bool} {name var : Mem} (hname : 0 ∉ name)
    {s s' : Ctx σ} (h : jsonScriptFindVar c expanding name s = (some (some var), s')) :
    (cString var).isSome := by
  obtain ⟨found, hfound, htext⟩ := @jsonScriptFindVar_eq _ _ _ expanding _ hvars hname s
  rw [h, Prod.mk.injEq, Option.some.injEq] at hfound
  rw [← hfound.1] at htext
  cases hvalue : (valueOf c vars expanding name s).1 with
  | none => simp [hvalue] at htext
  | some value =>
      rw [hvalue, Option.map_some, Option.map_some, Option.some.injEq] at htext
      rw [htext]
      rfl

theorem exprEqRegex_returns {n : Nat} {name : Mem} {children : List Element} {m : Mem}
    (h : Held n (.nest true name children) m) (regex : Bool) :
    Returns (exprEqRegex c m regex) := by
  obtain ⟨tb, htb, hslot⟩ := h.parseTuple_some rfl [blobmsgTypeString, blobmsgTypeString, 0] (by simp)
  rw [exprEqRegex, jsonGetTuple, htb, need_some_bind]
  cases h₁ : slot tb 1 with
  | none => exact Returns.pure (-1)
  | some tb1 =>
      cases h₂ : slot tb 2 with
      | none => exact Returns.pure (-1)
      | some tb2 =>
          obtain ⟨k₁, e₁, -, held₁, htype₁⟩ := hslot 1 tb1 h₁
          obtain ⟨k₂, e₂, -, held₂, -⟩ := hslot 2 tb2 h₂
          obtain ⟨str, hzero, hstr⟩ := held₁.stringAt (htype₁.resolve_left (by decide))
          simp only [hstr, need_some_bind, held₂.blobId_eq]
          refine (jsonScriptFindVar_returns hvars false hzero).bind_of fun s found s' hfound => ?_
          cases found with
          | none => exact Returns.pure 0
          | some var =>
              have hvar := cString_of_jsonScriptFindVar hvars hzero hfound
              have hone : ∀ {k e' m'}, Held k e' m' → e'.type = blobmsgTypeString →
                  ∃ eq, eqRegexAttr c var m' regex = some eq := by
                intro k e' m' held' he'
                obtain ⟨pattern, -, hpattern⟩ := held'.stringAt he'
                obtain ⟨data, hdata, hcstring⟩ := Option.bind_eq_some_iff.mp hpattern
                obtain ⟨value, hvalue⟩ := Option.isSome_iff_exists.mp hvar
                exact ⟨_, by rw [eqRegexAttr, hdata, Option.bind_some, eqRegexCmp, hvalue,
                  Option.bind_some, hcstring, Option.map_some]⟩
              dsimp only
              by_cases hstring : e₂.type = blobmsgTypeString
              · obtain ⟨eq, heq⟩ := hone held₂ hstring
                rw [if_pos hstring, heq, need_some_bind]
                exact Returns.pure _
              rw [if_neg hstring]
              by_cases harray : e₂.type = blobmsgTypeArray
              · rw [if_pos harray]
                refine (held₂.forEachIn_returns harray fun k i e₃ m₃ _ held₃ => ?_).bind
                  fun found => Returns.pure _
                rw [held₃.blobId_eq, need_some_bind]
                by_cases hstring₃ : e₃.type = blobmsgTypeString
                · obtain ⟨eq, heq⟩ := hone held₃ hstring₃
                  rw [if_neg (not_not.mpr hstring₃), heq, need_some_bind]
                  exact Returns.pure _
                · rw [if_pos hstring₃]
                  exact held₃.error_returns c _ _
              · rw [if_neg harray]
                exact held₂.error_returns c _ _

theorem handleExprHas_returns {n : Nat} {name : Mem} {children : List Element} {m : Mem}
    (h : Held n (.nest true name children) m) : Returns (handleExprHas c m) := by
  obtain ⟨tb, htb, hslot⟩ := h.parseTuple_some rfl [blobmsgTypeString, 0, 0] (by simp)
  rw [handleExprHas, jsonGetTuple, htb, need_some_bind]
  cases h₁ : slot tb 1 with
  | none => exact Returns.pure (-1)
  | some tb1 =>
      obtain ⟨k₁, e₁, -, held₁, -⟩ := hslot 1 tb1 h₁
      simp only [held₁.blobId_eq, need_some_bind]
      by_cases hstring : e₁.type = blobmsgTypeString
      · obtain ⟨str, hzero, hstr⟩ := held₁.stringAt hstring
        rw [if_pos hstring, hstr, need_some_bind]
        exact (jsonScriptFindVar_returns hvars false hzero).bind fun var => Returns.pure _
      rw [if_neg hstring]
      by_cases harray : e₁.type = blobmsgTypeArray
      · rw [if_pos harray]
        refine (held₁.forEachIn_returns harray fun k i e₂ m₂ _ held₂ => ?_).bind
          fun found => Returns.pure _
        rw [held₂.blobId_eq, need_some_bind]
        by_cases hstring₂ : e₂.type = blobmsgTypeString
        · obtain ⟨str, hzero, hstr⟩ := held₂.stringAt hstring₂
          rw [if_neg (not_not.mpr hstring₂), hstr, need_some_bind]
          exact (jsonScriptFindVar_returns hvars false hzero).bind fun var => Returns.pure _
        · rw [if_pos hstring₂]
          exact held₂.error_returns c _ _
      · rw [if_neg harray]
        exact held₁.error_returns c _ _

/-- **Evaluation ends**: the recursion goes no deeper than the expression has bytes. -/
theorem jsonProcessExpr_returns {fuel : Nat} {e : Element} {m : Mem} (h : Held fuel e m) :
    Returns (jsonProcessExpr c fuel m) := by
  induction fuel generalizing e m with
  | zero =>
      obtain ⟨b, t, hb, hlen, -, -⟩ := h
      have := hb.alone.1
      omega
  | succ fuel ih =>
      have hsmaller : ∀ {k e' m'}, k < fuel + 1 → Held k e' m' →
          Returns (jsonProcessExpr c fuel m') := by
        intro k e' m' hk held'
        obtain ⟨b, t, hb, hlen, ht, hm⟩ := held'
        exact ih ⟨b, t, hb, by omega, ht, hm⟩
      by_cases harray : e.type = blobmsgTypeArray
      · obtain ⟨b, inner, t, children, hm, hb, hinner, -, ht⟩ := h.exists_isArray harray
        have hpeek : Peekable (inner ++ t) := by
          cases children with
          | nil =>
              cases hinner
              exact ht
          | cons e' es => exact peekable_holds hinner t
        obtain ⟨type, htype, hstring⟩ := hpeek
        have hdata : blobmsgData m = some (inner ++ t) := hm ▸ hb.blobmsgData_eq t
        have hstart : startsWithString m = some (decide (type = blobmsgTypeString)) := by
          rw [startsWithString, h.blobId_eq, Option.bind_some, if_neg (not_not.mpr harray), hdata,
            Option.bind_some, htype, Option.map_some]
        rw [jsonProcessExpr, hstart, need_some_bind]
        by_cases hname : type = blobmsgTypeString
        · rw [if_pos (decide_eq_true hname)]
          obtain ⟨str, hstr⟩ := hstring hname
          refine Returns.bind ?_ fun found => ?_
          · rw [jsonProcessType, hdata, Option.bind_some, hstr, need_some_bind]
            cases hfind : (exprTable c (jsonProcessExpr c fuel)).find? fun entry =>
              entry.1 = str with
            | none => exact Returns.pure none
            | some entry =>
                have hmem := List.mem_of_find?_eq_some hfind
                refine Returns.map some ?_
                obtain ⟨name, children, rfl⟩ : ∃ name children, e = .nest true name children := by
                  obtain ⟨b', t', hb', -⟩ := h
                  exact hb'.nest_of_type harray
                have hjunction : ∀ and, Returns (exprAndOr (jsonProcessExpr c fuel) m and) := by
                  intro and
                  refine (h.forEachIn_returns rfl fun k i e' m' hk held' => ?_).bind
                    fun left => Returns.pure _
                  exact Returns.ite (Returns.pure _)
                    ((hsmaller hk held').bind fun ret => Returns.pure _)
                simp only [exprTable, List.mem_cons, List.not_mem_nil, or_false] at hmem
                rcases hmem with rfl | rfl | rfl | rfl | rfl | rfl
                · exact exprEqRegex_returns hvars h false
                · exact exprEqRegex_returns hvars h true
                · exact handleExprHas_returns hvars h
                · exact hjunction 1
                · exact hjunction 0
                · obtain ⟨tb, htb, hslot⟩ := h.parseTuple_some rfl
                    [blobmsgTypeString, blobmsgTypeArray, 0] (by simp)
                  simp only
                  rw [handleExprNot, jsonGetTuple, htb, need_some_bind]
                  cases h₁ : slot tb 1 with
                  | none => exact Returns.pure (-1)
                  | some tb1 =>
                      obtain ⟨k, e₁, hk, held₁, -⟩ := hslot 1 tb1 h₁
                      exact (hsmaller hk held₁).bind fun ret => Returns.pure _
          · cases found with
            | none => exact h.error_returns c _ _
            | some ret => exact Returns.pure ret
        · rw [if_neg (by simpa using hname)]
          exact h.error_returns c _ _
      · have hstart : startsWithString m = some false := by
          rw [startsWithString, h.blobId_eq, Option.bind_some, if_pos harray]
        rw [jsonProcessExpr, hstart, need_some_bind]
        exact h.error_returns c _ _

end Returns

end Libubox.JsonScript
