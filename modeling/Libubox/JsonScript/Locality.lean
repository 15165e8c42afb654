import Libubox.JsonScript.Values

/-!
# What an expression reads

An expression is evaluated from its own bytes, with one exception: the dispatch of
an empty array looks at what follows it.  `Strays` says that the evaluation comes
to an empty array with which the expression ends.
-/

namespace Libubox.JsonScript

open Bytes Blob Blobmsg Effect

variable {σ : Type} {c : Call σ} {e : Element} {m₁ m₂ : Mem}

/-! ## The handlers in two messages -/

section Handlers

variable {name : Mem} {children : List Element}

theorem exprEqRegex_twin {P : Mem → Mem → Prop} (h : Twin P (.nest true name children) m₁ m₂)
    (regex : Bool) : exprEqRegex c m₁ regex = exprEqRegex c m₂ regex := by
  obtain ⟨tb₁, tb₂, h₁, h₂, hslots⟩ :=
    (h.mono (Q := fun _ _ => True) fun _ _ _ => trivial).parseTuple_eq (fun _ _ _ => trivial)
      [blobmsgTypeString, blobmsgTypeString, 0] (by simp)
  rw [exprEqRegex, exprEqRegex, jsonGetTuple, jsonGetTuple, h₁, h₂, need_some_bind, need_some_bind]
  rcases hslots 1 with ⟨h₁, h₂⟩ | ⟨e₁, a₁, a₂, h₁, h₂, htype, ha⟩
  · rw [h₁, h₂]
  rw [h₁, h₂]
  have he₁ : e₁.type = blobmsgTypeString := htype.resolve_left (by decide)
  obtain ⟨str, -, hs₁, hs₂⟩ := ha.stringAt he₁
  rcases hslots 2 with ⟨h₁, h₂⟩ | ⟨e₂, b₁, b₂, h₁, h₂, -, hb⟩
  · rw [h₁, h₂]
  rw [h₁, h₂]
  simp only [hs₁, hs₂, need_some_bind]
  congr 1
  funext var
  cases var with
  | none => rfl
  | some var =>
      simp only [hb.blobId_left, hb.blobId_right, need_some_bind]
      by_cases hstring : e₂.type = blobmsgTypeString
      · rw [if_pos hstring, if_pos hstring, hb.eqRegexAttr_eq hstring]
      rw [if_neg hstring, if_neg hstring]
      by_cases harray : e₂.type = blobmsgTypeArray
      · rw [if_pos harray, if_pos harray]
        obtain ⟨n, elements, rfl⟩ := hb.exists_nest harray
        rw [hb.forEachIn_eq (fun _ _ _ => trivial)]
        intro i e₃ d₁ d₂ hd
        simp only [hd.blobId_left, hd.blobId_right, need_some_bind]
        by_cases hstring₃ : e₃.type ≠ blobmsgTypeString
        · rw [if_pos hstring₃, if_pos hstring₃, hd.handleError_eq]
        · rw [if_neg hstring₃, if_neg hstring₃, hd.eqRegexAttr_eq (not_not.mp hstring₃)]
      · rw [if_neg harray, if_neg harray, hb.handleError_eq]

theorem handleExprHas_twin {P : Mem → Mem → Prop} (h : Twin P (.nest true name children) m₁ m₂) :
    handleExprHas c m₁ = handleExprHas c m₂ := by
  obtain ⟨tb₁, tb₂, h₁, h₂, hslots⟩ :=
    (h.mono (Q := fun _ _ => True) fun _ _ _ => trivial).parseTuple_eq (fun _ _ _ => trivial)
      [blobmsgTypeString, 0, 0] (by simp)
  rw [handleExprHas, handleExprHas, jsonGetTuple, jsonGetTuple, h₁, h₂, need_some_bind,
    need_some_bind]
  rcases hslots 1 with ⟨h₁, h₂⟩ | ⟨e₁, a₁, a₂, h₁, h₂, -, ha⟩
  · rw [h₁, h₂]
  rw [h₁, h₂]
  simp only [ha.blobId_left, ha.blobId_right, need_some_bind]
  by_cases hstring : e₁.type = blobmsgTypeString
  · obtain ⟨str, -, hs₁, hs₂⟩ := ha.stringAt hstring
    rw [if_pos hstring, if_pos hstring, hs₁, hs₂]
  rw [if_neg hstring, if_neg hstring]
  by_cases harray : e₁.type = blobmsgTypeArray
  · rw [if_pos harray, if_pos harray]
    obtain ⟨n, elements, rfl⟩ := ha.exists_nest harray
    rw [ha.forEachIn_eq (fun _ _ _ => trivial)]
    intro i e₂ d₁ d₂ hd
    simp only [hd.blobId_left, hd.blobId_right, need_some_bind]
    by_cases hstring₂ : e₂.type ≠ blobmsgTypeString
    · rw [if_pos hstring₂, if_pos hstring₂, hd.handleError_eq]
    · obtain ⟨str, -, hs₁, hs₂⟩ := hd.stringAt (not_not.mp hstring₂)
      rw [if_neg hstring₂, if_neg hstring₂, hs₁, hs₂]
  · rw [if_neg harray, if_neg harray, ha.handleError_eq]

end Handlers

/-! ## The dispatch -/

/-- The data of the array in both messages. -/
theorem Twin.data_peek {P : Mem → Mem → Prop} {name : Mem} {children : List Element}
    (h : Twin P (.nest true name children) m₁ m₂)
    (hempty : children = [] → ∀ t₁ t₂, P t₁ t₂ → Peek t₁ t₂) :
    ∃ d₁ d₂, blobmsgData m₁ = some d₁ ∧ blobmsgData m₂ = some d₂ ∧ Peek d₁ d₂ := by
  obtain ⟨b, t₁, t₂, hb, rfl, rfl, hP⟩ := h
  obtain ⟨pad, inner, wf, hinner, rfl⟩ := hb.nest_eq
  rw [List.append_assoc, List.append_assoc, wf.blobmsgData_eq, wf.blobmsgData_eq]
  refine ⟨_, _, rfl, rfl, ?_⟩
  cases children with
  | nil =>
      cases hinner
      exact hempty rfl t₁ t₂ hP
  | cons e es => exact peek_holds hinner t₁ t₂

/-- The same dispatch in both messages, if what it leads to is the same. -/
theorem dispatch_eq {fuel : Nat} {s : Ctx σ} {P : Mem → Mem → Prop} {name : Mem}
    {children : List Element} (h : Twin P (.nest true name children) m₁ m₂) {d₁ d₂ : Mem}
    (hd₁ : blobmsgData m₁ = some d₁) (hd₂ : blobmsgData m₂ = some d₂) (hpeek : Peek d₁ d₂)
    (hentry : ∀ entry ∈ exprTable c (jsonProcessExpr c fuel),
      blobId d₁ = some blobmsgTypeString → stringAt d₁ = some entry.1 →
      entry.2 m₁ s = entry.2 m₂ s) :
    jsonProcessExpr c (fuel + 1) m₁ s = jsonProcessExpr c (fuel + 1) m₂ s := by
  have harray : (Element.nest true name children).type = blobmsgTypeArray := rfl
  have hstart : startsWithString m₁ = startsWithString m₂ := by
    rw [startsWithString, startsWithString, h.blobId_left, h.blobId_right, hd₁, hd₂,
      Option.bind_some, Option.bind_some, Option.bind_some, Option.bind_some, hpeek.1]
  rw [jsonProcessExpr, jsonProcessExpr, ← hstart, h.handleError_eq, h.handleError_eq]
  cases hcase : startsWithString m₁ with
  | none => rfl
  | some dispatch =>
      rw [need_some_bind, need_some_bind]
      cases dispatch with
      | false => rfl
      | true =>
          have hstring : blobId d₁ = some blobmsgTypeString := by
            rw [startsWithString, h.blobId_left, harray, Option.bind_some, if_neg (by simp), hd₁,
              Option.bind_some] at hcase
            obtain ⟨type, htype, hdec⟩ := Option.map_eq_some_iff.mp hcase
            rw [htype, of_decide_eq_true hdec]
          rw [if_pos rfl, if_pos rfl, jsonProcessType, jsonProcessType, hd₁, hd₂, Option.bind_some,
            Option.bind_some, ← hpeek.2 hstring]
          cases hname : stringAt d₁ with
          | none => rfl
          | some op =>
              rw [need_some_bind, need_some_bind]
              cases hfind : (exprTable c (jsonProcessExpr c fuel)).find? fun entry =>
                entry.1 = op with
              | none => rfl
              | some entry =>
                  have hop : entry.1 = op := by
                    have := List.find?_some hfind
                    simpa using this
                  have hmem := List.mem_of_find?_eq_some hfind
                  have hsame := hentry entry hmem hstring (by rw [hname, hop])
                  simp only
                  rw [bind_apply, bind_apply, ← bind_pure_comp, ← bind_pure_comp, bind_apply,
                    bind_apply, hsame]

/-- An expression that is no array. -/
theorem jsonProcessExpr_other {fuel : Nat} (h : blobId m₁ = some e.type)
    (he : e.type ≠ blobmsgTypeArray) : jsonProcessExpr c (fuel + 1) m₁ =
      (do handleError c "Unexpected element type" m₁; pure (-1)) := by
  rw [jsonProcessExpr, startsWithString, h, Option.bind_some, if_pos he]
  rfl

/-- **With the same bytes to peek at**, an expression is evaluated in the same way. -/
theorem jsonProcessExpr_twin {fuel : Nat} (h : Twin Peek e m₁ m₂) :
    jsonProcessExpr c fuel m₁ = jsonProcessExpr c fuel m₂ := by
  induction fuel generalizing e m₁ m₂ with
  | zero => rfl
  | succ fuel ih =>
      by_cases harray : e.type = blobmsgTypeArray
      · obtain ⟨name, children, rfl⟩ := h.exists_nest harray
        obtain ⟨d₁, d₂, hd₁, hd₂, hpeek⟩ := h.data_peek fun _ _ _ => id
        funext s
        refine dispatch_eq h hd₁ hd₂ hpeek fun entry hentry _ _ => congrFun ?_ s
        have hjunction : ∀ and, exprAndOr (jsonProcessExpr c fuel) m₁ and =
            exprAndOr (jsonProcessExpr c fuel) m₂ and := by
          intro and
          rw [exprAndOr, exprAndOr, h.forEachIn_eq fun _ _ => id]
          intro i e a₁ a₂ ha
          rw [ih ha]
        simp only [exprTable, List.mem_cons, List.not_mem_nil, or_false] at hentry
        rcases hentry with rfl | rfl | rfl | rfl | rfl | rfl
        · exact exprEqRegex_twin h false
        · exact exprEqRegex_twin h true
        · exact handleExprHas_twin h
        · exact hjunction 1
        · exact hjunction 0
        · obtain ⟨tb₁, tb₂, h₁, h₂, hslots⟩ := h.parseTuple_eq (fun _ _ => id)
            [blobmsgTypeString, blobmsgTypeArray, 0] (by simp)
          simp only
          rw [handleExprNot, handleExprNot, jsonGetTuple, jsonGetTuple, h₁, h₂, need_some_bind,
            need_some_bind]
          rcases hslots 1 with ⟨h₁, h₂⟩ | ⟨e₁, a₁, a₂, h₁, h₂, -, ha⟩
          · rw [h₁, h₂]
          · rw [h₁, h₂]
            simp only [ih ha]
            rfl
      · rw [jsonProcessExpr_other h.blobId_left harray, jsonProcessExpr_other h.blobId_right harray,
          h.handleError_eq]

/-! ## Operands -/

/-- The loop body of `expr_and_or`. -/
def andOrBody (process : Mem → Script σ Int) (and : Int) (i : Nat) (cur : Mem) :
    Script σ (Option Int) :=
  if i < 1 then pure none
  else do
    let ret ← process cur
    pure (if ret < 0 then some ret else if ret ≠ and then some ret else none)

/-- The result of `not`. -/
def negate (ret : Int) : Int := if ret < 0 then ret else if ret = 0 then 1 else 0

section Operands

variable {process : Mem → Script σ Int} {fs ls b : Mem} {op : Element} {front : List Element}

theorem exprAndOr_array {inner : Mem} {children : List Element} (hb : IsArray inner b)
    (h : Holds children inner) (and : Int) (t : Mem) :
    exprAndOr process (b ++ t) and =
      loopOver (andOrBody process and) 0 ((places children (inner ++ t)).map Prod.snd) >>=
        fun left => pure (left.getD and) := by
  rw [← hb.forEachIn_eq _ h]
  rfl

/-- The loop over the first elements, then the last one. -/
theorem exprAndOr_last (hb : IsArray (fs ++ ls) b) (hfs : Holds (op :: front) fs)
    (hls : Holds [e] ls) (and : Int) (t : Mem) :
    exprAndOr process (b ++ t) and =
      loopOver (andOrBody process and) 0
          ((places (op :: front) (fs ++ (ls ++ t))).map Prod.snd) >>=
        carryOn (do
          let ret ← process (ls ++ t)
          pure (if ret < 0 then some ret else if ret ≠ and then some ret else none)) >>=
        fun left => pure (left.getD and) := by
  have hlast : places [e] (ls ++ t) = [(e, ls ++ t)] := by rw [places_cons hls]; rfl
  rw [exprAndOr_array hb (hfs.append hls), List.append_assoc fs ls t, places_append hfs, hlast,
    List.map_append, loopOver_append]
  rw [List.map_singleton, loopOver, loopOver, bind_carryOn_done, andOrBody,
    if_neg (by simp [places])]

theorem skips_array (hfront : ∀ y ∈ front, y.type ≠ blobmsgTypeArray) (m : Mem) :
    ∀ p ∈ places front m, ¬(blobmsgTypeArray = blobmsgTypeUnspec ∨ p.1.type = blobmsgTypeArray) := by
  intro p hp
  rw [not_or]
  exact ⟨by decide, hfront p.1 (mem_of_mem_places hp)⟩

/-- `not` takes the first array after its name. -/
theorem handleExprNot_array {inner : Mem} {x : Element} {back : List Element}
    (hb : IsArray (fs ++ inner) b)
    (hfs : Holds (op :: front) fs) (hop : op.type = blobmsgTypeString)
    (hfront : ∀ y ∈ front, y.type ≠ blobmsgTypeArray) (hx : x.type = blobmsgTypeArray)
    (hinner : Holds (x :: back) inner) (t : Mem) :
    handleExprNot process (b ++ t) = process (inner ++ t) >>= fun ret => pure (negate ret) := by
  obtain ⟨first, rest, rfl, hfirst, hrest⟩ := hfs.cut
  have hpick : pick [blobmsgTypeString, blobmsgTypeArray, 0]
      (places (op :: (front ++ x :: back)) (first ++ rest ++ inner ++ t)) =
      some (first ++ (rest ++ (inner ++ t))) :: some (inner ++ t) ::
        pick [0] (places back (((inner ++ t)).drop x.size)) := by
    rw [List.append_assoc, List.append_assoc, places_cons hfirst, pick, if_pos (.inr hop),
      places_append hrest, pick_skip (skips_array hfront _), places, pick, if_pos (.inr hx)]
  have htuple := hb.parseTuple_eq
    (List.cons_ne_nil blobmsgTypeString [blobmsgTypeArray, 0]) (hfs.append hinner) t
  rw [List.cons_append, hpick] at htuple
  rw [handleExprNot, jsonGetTuple, htuple, need_some_bind, slot_cons_succ, slot_cons_zero]
  rfl

/-- Without an array there is nothing to negate. -/
theorem handleExprNot_none {inner : Mem} (hb : IsArray inner b) (h : Holds (op :: front) inner)
    (hop : op.type = blobmsgTypeString) (hfront : ∀ y ∈ front, y.type ≠ blobmsgTypeArray)
    (t : Mem) : handleExprNot process (b ++ t) = pure (-1) := by
  obtain ⟨first, rest, rfl, hfirst, hrest⟩ := h.cut
  have hpick : pick [blobmsgTypeString, blobmsgTypeArray, 0]
      (places (op :: front) (first ++ rest ++ t)) =
      [some (first ++ (rest ++ t)), none, none] := by
    have hnone : pick [blobmsgTypeArray, 0] (places front (rest ++ t) ++ []) =
        pick [blobmsgTypeArray, 0] [] := pick_skip (skips_array hfront _) []
    rw [List.append_nil, pick_nil] at hnone
    rw [List.append_assoc, places_cons hfirst, pick, if_pos (.inr hop), hnone]
    rfl
  have htuple := hb.parseTuple_eq
    (List.cons_ne_nil blobmsgTypeString [blobmsgTypeArray, 0]) h t
  rw [hpick] at htuple
  rw [handleExprNot, jsonGetTuple, htuple]
  rfl

variable {inner : Mem} {operands : List Element} {s : Ctx σ}
  (htwin : ∀ e m₁ m₂, Twin Peek e m₁ m₂ → process m₁ = process m₂)

include htwin

/-- The operands before the last one are the same, whatever follows it. -/
theorem operands_before (hfs : Holds (op :: front) fs) (hls : Holds [e] ls) (and : Int) (t : Mem) :
    loopOver (andOrBody process and) 0 ((places (op :: front) (fs ++ (ls ++ t))).map Prod.snd) =
      loopOver (andOrBody process and) 0 ((places (op :: front) (fs ++ ls)).map Prod.snd) := by
  have hpeek := peek_holds hls t []
  rw [List.append_nil] at hpeek
  refine loopOver_twins (places_twins (fun _ _ => id) hfs hpeek) (fun i e m₁ m₂ h => ?_) 0
  rw [andOrBody, andOrBody, htwin e m₁ m₂ h]

theorem exprAndOr_eq (hb : IsArray inner b) (hinner : Holds (op :: operands) inner) (and : Int)
    (hlast : ∀ fs ls front e s', inner = fs ++ ls → Holds (op :: front) fs → Holds [e] ls →
      loopOver (andOrBody process and) 0 ((places (op :: front) (fs ++ ls)).map Prod.snd) s =
        (some none, s') → ∀ t₁ t₂, process (ls ++ t₁) s' = process (ls ++ t₂) s') (t₁ t₂ : Mem) :
    exprAndOr process (b ++ t₁) and s = exprAndOr process (b ++ t₂) and s := by
  rcases List.eq_nil_or_concat operands with rfl | ⟨front, e, rfl⟩
  · rw [exprAndOr_array hb hinner, exprAndOr_array hb hinner]
    rfl
  · rw [List.concat_eq_append, ← List.cons_append] at hinner
    obtain ⟨fs, ls, rfl, hfs, hls⟩ := hinner.split
    rw [exprAndOr_last hb hfs hls, exprAndOr_last hb hfs hls, operands_before htwin hfs hls,
      operands_before htwin hfs hls, bind_apply, bind_apply, bind_apply, bind_apply]
    rcases hgo : loopOver (andOrBody process and) 0
      ((places (op :: front) (fs ++ ls)).map Prod.snd) s with ⟨_ | _ | ret, s'⟩
    · rfl
    · simp only [carryOn]
      rw [bind_apply, bind_apply, hlast fs ls front e s' rfl hfs hls hgo t₁ t₂]
    · rfl

theorem handleExprNot_eq (hb : IsArray inner b) (hinner : Holds (op :: operands) inner)
    (hop : op.type = blobmsgTypeString)
    (hlast : ∀ fs ls front e, inner = fs ++ ls → Holds (op :: front) fs → Holds [e] ls →
      (∀ y ∈ front, y.type ≠ blobmsgTypeArray) → e.type = blobmsgTypeArray →
      ∀ t₁ t₂, process (ls ++ t₁) s = process (ls ++ t₂) s) (t₁ t₂ : Mem) :
    handleExprNot process (b ++ t₁) s = handleExprNot process (b ++ t₂) s := by
  cases hfind : operands.find? fun e => e.type = blobmsgTypeArray with
  | none =>
      have hnone : ∀ y ∈ operands, y.type ≠ blobmsgTypeArray := by
        intro y hy
        have := List.find?_eq_none.mp hfind y hy
        simpa using this
      rw [handleExprNot_none hb hinner hop hnone, handleExprNot_none hb hinner hop hnone]
  | some e =>
      obtain ⟨he, front, back, rfl, hfront⟩ := List.find?_eq_some_iff_append.mp hfind
      have he : e.type = blobmsgTypeArray := by simpa using he
      have hfront : ∀ y ∈ front, y.type ≠ blobmsgTypeArray := fun y hy => by
        simpa using hfront y hy
      rw [← List.cons_append] at hinner
      obtain ⟨fs, rest, rfl, hfs, hrest⟩ := hinner.split
      rw [handleExprNot_array hb hfs hop hfront he hrest,
        handleExprNot_array hb hfs hop hfront he hrest, bind_apply, bind_apply]
      have hsame : process (rest ++ t₁) s = process (rest ++ t₂) s := by
        cases back with
        | nil => exact hlast fs rest front e rfl hfs hrest hfront he t₁ t₂
        | cons e' back =>
            obtain ⟨xs, tail, rfl, hxs, htail⟩ := hrest.cut
            refine congrFun (htwin e _ _ ⟨xs, tail ++ t₁, tail ++ t₂, hxs, ?_, ?_, ?_⟩) s
            · rw [List.append_assoc]
            · rw [List.append_assoc]
            · exact peek_holds htail t₁ t₂
      rw [hsame]

end Operands

/-! ## Empty arrays at the end -/

/-- `and` and `or`, with the value of no operands. -/
def junctions : List (Mem × Int) := [(ascii ['a', 'n', 'd'], 1), (ascii ['o', 'r'], 0)]

/-- From the state `s`, the evaluation of the bytes `b` comes to an empty array with
which they end: `b` itself, or the last operand of `and` or `or` if the operands
before it decide nothing, or the operand of `not` if it is the last element. -/
inductive Strays (c : Call σ) : Nat → Mem → Ctx σ → Prop
  | empty {fuel : Nat} {b : Mem} {s : Ctx σ} (hb : IsArray [] b) : Strays c (fuel + 1) b s
  | junction {fuel : Nat} {b fs ls name : Mem} {op e : Element} {front : List Element} {and : Int}
      {s s' : Ctx σ} (hb : IsArray (fs ++ ls) b) (hfs : Holds (op :: front) fs)
      (hls : Holds [e] ls) (hop : op.type = blobmsgTypeString) (hname : stringAt fs = some name)
      (hand : (name, and) ∈ junctions)
      (hgo : loopOver (andOrBody (jsonProcessExpr c fuel) and) 0
        ((places (op :: front) (fs ++ ls)).map Prod.snd) s = (some none, s'))
      (hlast : Strays c fuel ls s') : Strays c (fuel + 1) b s
  | negation {fuel : Nat} {b fs ls : Mem} {op e : Element} {front : List Element} {s : Ctx σ}
      (hb : IsArray (fs ++ ls) b) (hfs : Holds (op :: front) fs) (hls : Holds [e] ls)
      (hop : op.type = blobmsgTypeString) (hname : stringAt fs = some (ascii ['n', 'o', 't']))
      (hfront : ∀ y ∈ front, y.type ≠ blobmsgTypeArray) (he : e.type = blobmsgTypeArray)
      (hlast : Strays c fuel ls s) : Strays c (fuel + 1) b s

/-- The name of an array in front of its operands. -/
theorem stringAt_fs {op : Element} {front : List Element} {fs : Mem}
    (hfs : Holds (op :: front) fs) (hop : op.type = blobmsgTypeString) (rest : Mem) :
    stringAt (fs ++ rest) = stringAt fs := by
  obtain ⟨first, tail, rfl, hfirst, -⟩ := hfs.cut
  obtain ⟨str, -, hstr⟩ := stringAt_holds hfirst hop
  rw [List.append_assoc, hstr, hstr]

theorem blobId_fs {op : Element} {front : List Element} {fs : Mem} (hfs : Holds (op :: front) fs)
    (rest : Mem) : blobId (fs ++ rest) = some op.type := by
  obtain ⟨first, tail, rfl, hfirst, -⟩ := hfs.cut
  rw [List.append_assoc, hfirst.blobId_eq]

/-- **Local evaluation.**  Where it does not come to such an array, the evaluation is
the same in both messages. -/
theorem eq_of_not_strays {b : Mem} (h : Holds [e] b) {fuel : Nat} {s : Ctx σ}
    (hstays : ¬Strays c fuel b s) (t₁ t₂ : Mem) :
    jsonProcessExpr c fuel (b ++ t₁) s = jsonProcessExpr c fuel (b ++ t₂) s := by
  induction fuel generalizing e b s t₁ t₂ with
  | zero => rfl
  | succ fuel ih =>
      have htwin : Twin (fun _ _ => True) e (b ++ t₁) (b ++ t₂) :=
        ⟨b, t₁, t₂, h, rfl, rfl, trivial⟩
      by_cases harray : e.type = blobmsgTypeArray
      · obtain ⟨name, children, rfl⟩ := htwin.exists_nest harray
        obtain ⟨pad, inner, wf, hinner, hb⟩ := h.nest_eq
        have hb : IsArray inner b := ⟨name, pad, wf, hb⟩
        cases children with
        | nil =>
            cases hinner
            exact absurd (Strays.empty hb) hstays
        | cons op operands =>
            obtain ⟨d₁, d₂, hd₁, hd₂, hpeek⟩ := htwin.data_peek fun h => nomatch h
            have hstart : ∀ {name : Mem}, blobId d₁ = some blobmsgTypeString →
                stringAt d₁ = some name → op.type = blobmsgTypeString ∧
                ∀ fs ls front, inner = fs ++ ls → Holds (op :: front) fs →
                  stringAt fs = some name := by
              intro name hid hname
              have hd : d₁ = inner ++ t₁ := by
                obtain ⟨_, _, wf', rfl⟩ := hb
                rw [List.append_assoc, wf'.blobmsgData_eq] at hd₁
                exact (Option.some.inj hd₁).symm
              obtain ⟨first, tail, rfl, hfirst, -⟩ := hinner.cut
              rw [hd, List.append_assoc, hfirst.blobId_eq, Option.some.injEq] at hid
              refine ⟨hid, fun fs ls front hsplit hfs => ?_⟩
              rw [hd, hsplit, List.append_assoc, stringAt_fs hfs hid] at hname
              exact hname
            have hjunction : ∀ name and, (name, and) ∈ junctions → stringAt d₁ = some name →
                blobId d₁ = some blobmsgTypeString → ∀ fs ls front e s', inner = fs ++ ls →
                Holds (op :: front) fs → Holds [e] ls →
                loopOver (andOrBody (jsonProcessExpr c fuel) and) 0
                  ((places (op :: front) (fs ++ ls)).map Prod.snd) s = (some none, s') →
                ∀ t₁ t₂, jsonProcessExpr c fuel (ls ++ t₁) s' =
                  jsonProcessExpr c fuel (ls ++ t₂) s' := by
              intro name and hand hname hid fs ls front e s' hsplit hfs hls hgo
              obtain ⟨hop, hstring⟩ := hstart hid hname
              have hb' : IsArray (fs ++ ls) b := hsplit ▸ hb
              exact ih hls fun hlast => hstays
                (.junction hb' hfs hls hop (hstring fs ls front hsplit hfs) hand hgo hlast)
            refine dispatch_eq htwin hd₁ hd₂ hpeek fun entry hentry hid hname => ?_
            simp only [exprTable, List.mem_cons, List.not_mem_nil, or_false] at hentry
            rcases hentry with rfl | rfl | rfl | rfl | rfl | rfl
            · exact congrFun (exprEqRegex_twin htwin false) s
            · exact congrFun (exprEqRegex_twin htwin true) s
            · exact congrFun (handleExprHas_twin htwin) s
            · exact exprAndOr_eq (fun _ _ _ => jsonProcessExpr_twin) hb hinner 1
                (hjunction (ascii ['a', 'n', 'd']) 1 (by simp [junctions]) hname hid) t₁ t₂
            · exact exprAndOr_eq (fun _ _ _ => jsonProcessExpr_twin) hb hinner 0
                (hjunction (ascii ['o', 'r']) 0 (by simp [junctions]) hname hid) t₁ t₂
            · refine handleExprNot_eq (fun _ _ _ => jsonProcessExpr_twin) hb hinner
                (hstart hid hname).1 (fun fs ls front e hsplit hfs hls hfront he => ?_) t₁ t₂
              obtain ⟨hop, hstring⟩ := hstart hid hname
              have hb' : IsArray (fs ++ ls) b := hsplit ▸ hb
              exact ih hls fun hlast => hstays
                (.negation hb' hfs hls hop (hstring fs ls front hsplit hfs) hfront he hlast)
      · rw [jsonProcessExpr_other htwin.blobId_left harray,
          jsonProcessExpr_other htwin.blobId_right harray, htwin.handleError_eq]

mutual
/-- No array is empty, at any depth. -/
def NoEmpty : Element → Prop
  | .data _ _ _ => True
  | .nest array _ children => (array = true → children ≠ []) ∧ NoEmpties children

def NoEmpties : List Element → Prop
  | [] => True
  | e :: es => NoEmpty e ∧ NoEmpties es
end

theorem noEmpties_iff {es : List Element} : NoEmpties es ↔ ∀ e ∈ es, NoEmpty e := by
  induction es with
  | nil => simp [NoEmpties]
  | cons e es ih => simp [NoEmpties, ih]

/-- The last element of an array. -/
theorem IsArray.noEmpty_last {b fs ls : Mem} {op e' : Element} {front : List Element}
    (hb : IsArray (fs ++ ls) b) (hfs : Holds (op :: front) fs) (hls : Holds [e'] ls)
    (h : Holds [e] b) (hne : NoEmpty e) : NoEmpty e' := by
  obtain ⟨name, children, rfl, hchildren⟩ := hb.elements h
  obtain rfl := (hfs.append hls).unique hchildren hb.small
  rw [NoEmpty] at hne
  exact noEmpties_iff.mp hne.2 e' (List.mem_append_right _ List.mem_cons_self)

/-- Without empty arrays an evaluation cannot come to one. -/
theorem not_strays_of_noEmpty {fuel : Nat} {b : Mem} {s : Ctx σ} (h : Holds [e] b)
    (hne : NoEmpty e) : ¬Strays c fuel b s := by
  intro hstrays
  induction hstrays generalizing e with
  | empty hb =>
      obtain ⟨name, children, rfl, hchildren⟩ := hb.elements h
      rw [NoEmpty] at hne
      cases hchildren
      exact hne.1 rfl rfl
  | junction hb hfs hls hop hname hand hgo hlast ih =>
      exact ih hls (hb.noEmpty_last hfs hls h hne)
  | negation hb hfs hls hop hname hfront he hlast ih =>
      exact ih hls (hb.noEmpty_last hfs hls h hne)

/-! ## What may follow -/

/-- An array that starts with the name of a handler. -/
theorem jsonProcessExpr_array {fuel : Nat} {inner b t name : Mem} {f : Mem → Script σ Int}
    (hb : IsArray inner b) (hstring : blobId (inner ++ t) = some blobmsgTypeString)
    (hname : stringAt (inner ++ t) = some name)
    (hfind : (exprTable c (jsonProcessExpr c fuel)).find? (fun entry => entry.1 = name) =
      some (name, f)) : jsonProcessExpr c (fuel + 1) (b ++ t) = f (b ++ t) := by
  have hstart : startsWithString (b ++ t) = some true := by
    rw [startsWithString, hb.blobId_eq, Option.bind_some, if_neg (by simp), hb.blobmsgData_eq,
      Option.bind_some, hstring]
    rfl
  rw [jsonProcessExpr, hstart, need_some_bind, if_pos rfl, jsonProcessType, hb.blobmsgData_eq,
    Option.bind_some, hname, need_some_bind, hfind]
  exact (bind_map_left _ _ _).trans (bind_pure _)

theorem handleError_value {α : Type} {m own : Mem} (h : ownBytes m = some own) (msg : String)
    (a : α) (s : Ctx σ) : ∃ s' aborts, (do handleError c msg m; pure a) s = (some a, s') ∧
      s'.trace = s.trace ++ [.error msg own aborts] := by
  rw [handleError, h]
  exact ⟨_, _, rfl, rfl⟩

/-- The string `and`. -/
def andBytes : Mem := stringBytes (ascii ['a', 'n', 'd'])

/-- A number. -/
def numberBytes : Mem := fieldBytes blobmsgTypeInt8 [] [1]

/-- Followed by the string `and`, an empty array is true, and followed by a number it
is an error. -/
theorem differ_of_strays {fuel : Nat} {b : Mem} {s : Ctx σ} (h : Strays c fuel b s) :
    ∃ r₁ s₁ r₂ s₂, jsonProcessExpr c fuel (b ++ andBytes) s = (some r₁, s₁) ∧
      jsonProcessExpr c fuel (b ++ numberBytes) s = (some r₂, s₂) ∧
      s₂.trace.length = s₁.trace.length + 1 := by
  induction h with
  | @empty fuel b s hb =>
      have hname : stringAt ([] ++ andBytes) = some (ascii ['a', 'n', 'd']) := by decide
      have hone : jsonProcessExpr c (fuel + 1) (b ++ andBytes) =
          exprAndOr (jsonProcessExpr c fuel) (b ++ andBytes) 1 :=
        jsonProcessExpr_array (f := fun expr => exprAndOr (jsonProcessExpr c fuel) expr 1) hb
          (by decide) hname rfl
      have hother : startsWithString (b ++ numberBytes) = some false := by
        rw [startsWithString, hb.blobId_eq, Option.bind_some, if_neg (by simp), hb.blobmsgData_eq]
        decide
      obtain ⟨s₂, aborts, herror, htrace⟩ :=
        handleError_value (c := c) (hb.ownBytes_eq .nil numberBytes) "Unexpected element type"
          (-1 : Int) s
      refine ⟨1, s, -1, s₂, ?_, ?_, ?_⟩
      · rw [hone, exprAndOr_array hb .nil]
        rfl
      · rw [jsonProcessExpr, hother, need_some_bind, if_neg (by simp), herror]
      · rw [htrace, List.length_append, List.length_singleton]
  | @junction fuel b fs ls name op e front and s s' hb hfs hls hop hname hand hgo hlast ih =>
      obtain ⟨r₁, s₁, r₂, s₂, h₁, h₂, htrace⟩ := ih
      have hfind : (exprTable c (jsonProcessExpr c fuel)).find? (fun entry => entry.1 = name) =
          some (name, fun expr => exprAndOr (jsonProcessExpr c fuel) expr and) := by
        simp only [junctions, List.mem_cons, Prod.mk.injEq, List.not_mem_nil, or_false] at hand
        rcases hand with ⟨rfl, rfl⟩ | ⟨rfl, rfl⟩
        · rfl
        · rfl
      have hone : ∀ t r s'', jsonProcessExpr c fuel (ls ++ t) s' = (some r, s'') →
          ∃ r', jsonProcessExpr c (fuel + 1) (b ++ t) s = (some r', s'') := by
        intro t r s'' hr
        rw [jsonProcessExpr_array hb ?_ ?_ hfind, exprAndOr_last hb hfs hls,
          operands_before (fun _ _ _ => jsonProcessExpr_twin) hfs hls, bind_apply, bind_apply, hgo]
        · simp only [carryOn]
          rw [bind_some hr]
          exact ⟨_, rfl⟩
        · rw [List.append_assoc, blobId_fs hfs, hop]
        · rw [List.append_assoc, stringAt_fs hfs hop, hname]
      obtain ⟨r₁', h₁'⟩ := hone andBytes r₁ s₁ h₁
      obtain ⟨r₂', h₂'⟩ := hone numberBytes r₂ s₂ h₂
      exact ⟨r₁', s₁, r₂', s₂, h₁', h₂', htrace⟩
  | @negation fuel b fs ls op e front s hb hfs hls hop hname hfront he hlast ih =>
      obtain ⟨r₁, s₁, r₂, s₂, h₁, h₂, htrace⟩ := ih
      have hone : ∀ t, jsonProcessExpr c (fuel + 1) (b ++ t) =
          jsonProcessExpr c fuel (ls ++ t) >>= fun ret => pure (negate ret) := by
        intro t
        have hstr : stringAt (fs ++ ls ++ t) = some (ascii ['n', 'o', 't']) := by
          rw [List.append_assoc, stringAt_fs hfs hop, hname]
        rw [jsonProcessExpr_array (f := handleExprNot (jsonProcessExpr c fuel)) hb ?_ hstr rfl,
          handleExprNot_array hb hfs hop hfront he hls]
        rw [List.append_assoc, blobId_fs hfs, hop]
      refine ⟨negate r₁, s₁, negate r₂, s₂, ?_, ?_, htrace⟩
      · rw [hone, bind_some h₁, pure_apply]
      · rw [hone, bind_some h₂, pure_apply]

/-- Where it does not come to such an array, the evaluation ends with a value. -/
theorem exists_truth_of_not_strays {b : Mem} {vars : List Element} (h : Holds [e] b)
    (hvars : HoldsVars vars c.vars) {fuel : Nat} {s : Ctx σ} (hfuel : b.length ≤ fuel)
    (hstays : ¬Strays c fuel b s) (t : Mem) :
    ∃ ret s', jsonProcessExpr c fuel (b ++ t) s = (some ret, s') ∧ IsTruth ret := by
  have hpeek : Peekable numberBytes :=
    ⟨blobmsgTypeInt8, by decide, fun h => absurd h (by decide)⟩
  rw [eq_of_not_strays h hstays t numberBytes]
  obtain ⟨ret, s', hret⟩ := jsonProcessExpr_returns hvars
    (⟨b, numberBytes, h, hfuel, hpeek, rfl⟩ : Held fuel e (b ++ numberBytes)) s
  exact ⟨ret, s', hret, jsonProcessExpr_yields c fuel _ s ret (by rw [hret])⟩

/-- **Expressions read their own bytes**, and nothing behind them, if and only if the
evaluation does not come to an empty array at the end. -/
theorem local_iff {b : Mem} (h : Holds [e] b) (fuel : Nat) (s : Ctx σ) :
    (∀ t₁ t₂, jsonProcessExpr c fuel (b ++ t₁) s = jsonProcessExpr c fuel (b ++ t₂) s) ↔
      ¬Strays c fuel b s := by
  constructor
  · intro hlocal hstrays
    obtain ⟨r₁, s₁, r₂, s₂, h₁, h₂, htrace⟩ := differ_of_strays hstrays
    have hsame := hlocal andBytes numberBytes
    rw [h₁, h₂, Prod.mk.injEq] at hsame
    rw [hsame.2] at htrace
    omega
  · exact fun hstays => eq_of_not_strays h hstays

/-- An application without variables. -/
def quietCall : Call Unit where
  handlers :=
    { handleCommand := fun _ _ _ u => (u, false)
      handleVar := fun _ _ u => (none, u, false)
      handleFile := fun _ u => (none, u, false)
      handleError := fun _ _ u => (u, false) }
  regex := fun _ => none
  vars := none
  seq := 1
  run := 0

theorem holds_andBytes :
    Holds [.data blobmsgTypeString [] [97, 110, 100, 0]] andBytes := by
  have hshort : (ascii ['a', 'n', 'd']).length < 2 ^ 16 := by decide
  exact holds_stringBytes hshort

/-- `["and"]`. -/
theorem local_iff_and :
    ¬Strays quietCall 1 (arrayBytes andBytes) (initCtx () fun _ => none) ∧
    ∀ t₁ t₂, jsonProcessExpr quietCall 1 (arrayBytes andBytes ++ t₁) (initCtx () fun _ => none) =
      jsonProcessExpr quietCall 1 (arrayBytes andBytes ++ t₂) (initCtx () fun _ => none) := by
  have hone := holds_arrayBytes holds_andBytes (by decide)
  have hstays : ¬Strays quietCall 1 (arrayBytes andBytes) (initCtx () fun _ => none) :=
    not_strays_of_noEmpty hone (by simp [NoEmpty, NoEmpties])
  exact ⟨hstays, (local_iff hone 1 _).mpr hstays⟩

/-- `[], "and"` and `[], true` are well-formed, and `[]` is true in one and an error
in the other. -/
theorem not_local :
    Holds [.nest true [] [], .data blobmsgTypeString [] [97, 110, 100, 0]]
      (arrayBytes [] ++ andBytes) ∧
    Holds [.nest true [] [], .data blobmsgTypeInt8 [] [1]] (arrayBytes [] ++ numberBytes) ∧
    (jsonProcessExpr quietCall 1 (arrayBytes [] ++ andBytes) (initCtx () fun _ => none)).1 =
      some 1 ∧
    (jsonProcessExpr quietCall 1 (arrayBytes [] ++ numberBytes) (initCtx () fun _ => none)).1 =
      some (-1) := by
  have hempty : Holds [.nest true [] []] (arrayBytes []) := holds_arrayBytes .nil (by decide)
  refine ⟨hempty.append holds_andBytes, hempty.append ?_, by decide, by decide⟩
  exact holds_one ⟨by decide, by decide⟩

end Libubox.JsonScript
