import Mathlib.Data.List.Forall2
import Libubox.JsonScript.Locality

/-!
# De Morgan's laws

`["not", ["and", x1, ..., xn]]` and `["or", ["not", x1], ..., ["not", xn]]` are the
same expression, and so they are with `and` and `or` exchanged.  Both evaluate the
operands one after the other up to the same one (`upTo_map`); what follows an operand
does not matter, since no array is empty.
-/

namespace Libubox.JsonScript

open Bytes Blob Blobmsg Effect

variable {σ : Type} {c : Call σ}

/-- `and` or `or`. -/
def junctionName (and : Bool) : Mem := if and then ascii ['a', 'n', 'd'] else ascii ['o', 'r']

/-- The value without operands. -/
def junctionUnit (and : Bool) : Int := if and then 1 else 0

def notName : Mem := ascii ['n', 'o', 't']

/-- The array of the name of an operator and the bytes of its operands. -/
def IsCall (name args b : Mem) : Prop :=
  ∃ op fs, IsArray (fs ++ args) b ∧ Holds [op] fs ∧ op.type = blobmsgTypeString ∧
    stringAt fs = some name

/-- An array in which no array is empty. -/
def IsOperand (x : Element) (b : Mem) : Prop :=
  Holds [x] b ∧ x.type = blobmsgTypeArray ∧ NoEmpty x

/-- The operands one after the other, up to the first that is not the value of the
junction without operands: its number and its value. -/
def operandsUpTo (c : Call σ) (fuel : Nat) (and : Bool) (bs : List Mem) :
    Script σ (Option (Nat × Int)) :=
  upTo (junctionUnit and) 1 (bs.map (jsonProcessExpr c fuel))

/-! ## Negation of values -/

theorem negate_unit (and : Bool) : negate (junctionUnit and) = junctionUnit !and := by
  cases and
  · rfl
  · rfl

/-- Negation takes one value to the unit of the other junction. -/
theorem negate_eq_iff (and : Bool) {ret : Int} (h : IsTruth ret) :
    negate ret = negate (junctionUnit and) ↔ ret = junctionUnit and := by
  rcases h with rfl | rfl | rfl
  · cases and <;> decide
  · cases and <;> decide
  · cases and <;> decide

/-! ## Operands -/

theorem IsOperand.eq {x : Element} {b : Mem} (h : IsOperand x b) (fuel : Nat) (t : Mem) :
    jsonProcessExpr c fuel (b ++ t) = jsonProcessExpr c fuel b := by
  funext s
  have hstays : ¬Strays c fuel b s := not_strays_of_noEmpty h.1 h.2.2
  have hsame := eq_of_not_strays h.1 hstays t []
  rwa [List.append_nil] at hsame

theorem IsOperand.noEmpties {x : Element} {b : Mem} (h : IsOperand x b) : NoEmpties [x] :=
  ⟨h.2.2, trivial⟩

theorem noEmpties_of_operands {es : List Element} {bs : List Mem}
    (h : List.Forall₂ IsOperand es bs) : NoEmpties es := by
  induction h with
  | nil => trivial
  | cons hone hrest ih => exact ⟨hone.2.2, ih⟩

theorem holds_flatten {es : List Element} {bs : List Mem}
    (h : List.Forall₂ (fun e b => Holds [e] b) es bs) : Holds es bs.flatten := by
  induction h with
  | nil => exact .nil
  | cons hone hrest ih =>
      rw [List.flatten_cons]
      exact hone.append ih

/-- The loop over the elements evaluates them, whatever follows. -/
theorem map_places {β : Type} {f : Mem → β} {es : List Element} {bs : List Mem}
    (h : List.Forall₂ (fun e b => Holds [e] b ∧ ∀ t, f (b ++ t) = f b) es bs) (t : Mem) :
    ((places es (bs.flatten ++ t)).map Prod.snd).map f = bs.map f := by
  induction h with
  | nil => rfl
  | cons hone hrest ih =>
      rw [List.flatten_cons, List.append_assoc, places_cons hone.1, List.map_cons, List.map_cons,
        List.map_cons, hone.2, ih]

theorem loopOver_upTo {process : Mem → Script σ Int} (and : Bool) {i : Nat} (hi : 1 ≤ i)
    (ms : List Mem) : loopOver (andOrBody process (junctionUnit and)) i ms =
      upTo (junctionUnit and) i (ms.map process) >>= fun o => pure (o.map Prod.snd) := by
  induction ms generalizing i with
  | nil => rfl
  | cons m ms ih =>
      rw [List.map_cons, loopOver, upTo, andOrBody, if_neg (by omega), ih (by omega), bind_assoc,
        bind_assoc]
      congr 1
      funext ret
      rw [pure_bind]
      by_cases hskip : ret = junctionUnit and
      · have hpos : ¬ret < 0 := by
          rw [hskip]
          cases and <;> decide
        rw [if_pos hskip, if_neg hpos, if_neg (not_not.mpr hskip)]
        rfl
      · rw [if_neg hskip, if_pos hskip, ite_self]
        rfl

/-! ## Calls -/

theorem noEmpty_of_string {e : Element} (h : e.type = blobmsgTypeString) : NoEmpty e := by
  cases e with
  | data type name data =>
      rw [NoEmpty]
      trivial
  | nest array name children =>
      have htype : containerType array = blobmsgTypeString := h
      cases array <;> exact absurd htype (by decide)

namespace IsCall

variable {name args b : Mem} {es : List Element} (h : IsCall name args b)

include h

theorem holds (hargs : Holds es args) :
    ∃ nest op, Holds [.nest true nest (op :: es)] b ∧ op.type = blobmsgTypeString := by
  obtain ⟨op, fs, hb, hfs, hop, -⟩ := h
  obtain ⟨nest, hnest⟩ := hb.holds (hfs.append hargs)
  exact ⟨nest, op, hnest, hop⟩

/-- A call of operands is an operand. -/
theorem isOperand (hargs : Holds es args) (hne : NoEmpties es) : ∃ x, IsOperand x b := by
  obtain ⟨nest, op, hnest, hop⟩ := h.holds hargs
  refine ⟨_, hnest, rfl, ?_⟩
  rw [NoEmpty, NoEmpties]
  exact ⟨fun _ => List.cons_ne_nil op es, noEmpty_of_string hop, hne⟩

/-- The dispatch goes to the handler of the name. -/
theorem dispatch {fuel : Nat} {f : Mem → Script σ Int}
    (hfind : (exprTable c (jsonProcessExpr c fuel)).find? (fun entry => entry.1 = name) =
      some (name, f)) (t : Mem) : jsonProcessExpr c (fuel + 1) (b ++ t) = f (b ++ t) := by
  obtain ⟨op, fs, hb, hfs, hop, hname⟩ := h
  refine jsonProcessExpr_array hb ?_ ?_ hfind
  · rw [List.append_assoc, blobId_fs hfs, hop]
  · rw [List.append_assoc, stringAt_fs hfs hop, hname]

end IsCall

/-- A junction evaluates its operands. -/
theorem IsCall.junction_eq {and : Bool} {args b : Mem} {es : List Element}
    (h : IsCall (junctionName and) args b) (hargs : Holds es args) (fuel : Nat) (t : Mem) :
    jsonProcessExpr c (fuel + 1) (b ++ t) =
      upTo (junctionUnit and) 1 (((places es (args ++ t)).map Prod.snd).map (jsonProcessExpr c fuel))
        >>= fun o => pure ((o.map Prod.snd).getD (junctionUnit and)) := by
  have hfind : (exprTable c (jsonProcessExpr c fuel)).find?
      (fun entry => entry.1 = junctionName and) = some (junctionName and,
        fun expr => exprAndOr (jsonProcessExpr c fuel) expr (junctionUnit and)) := by
    cases and
    · rfl
    · rfl
  rw [h.dispatch hfind]
  obtain ⟨op, fs, hb, hfs, hop, hname⟩ := h
  rw [exprAndOr_array hb (hfs.append hargs), List.append_assoc, List.singleton_append,
    places_cons hfs, List.map_cons, loopOver, andOrBody, if_pos (by decide), pure_bind, carryOn,
    loopOver_upTo and (Nat.le_refl 1), bind_assoc]
  simp only [pure_bind]

/-- `not` evaluates its operand. -/
theorem IsCall.negation_eq {x b : Mem} {e : Element} (h : IsCall notName x b) (hx : Holds [e] x)
    (he : e.type = blobmsgTypeArray) (fuel : Nat) (t : Mem) :
    jsonProcessExpr c (fuel + 1) (b ++ t) =
      jsonProcessExpr c fuel (x ++ t) >>= fun ret => pure (negate ret) := by
  have hfind : (exprTable c (jsonProcessExpr c fuel)).find? (fun entry => entry.1 = notName) =
      some (notName, handleExprNot (jsonProcessExpr c fuel)) := rfl
  rw [h.dispatch hfind]
  obtain ⟨op, fs, hb, hfs, hop, hname⟩ := h
  exact handleExprNot_array hb hfs hop (fun y hy => nomatch hy) he hx t

/-! ## The laws -/

/-- A junction of operands stops at the first one that decides. -/
theorem IsCall.operands_eq {and : Bool} {bs : List Mem} {b : Mem} {es : List Element}
    (h : IsCall (junctionName and) bs.flatten b) (hes : List.Forall₂ IsOperand es bs) (fuel : Nat)
    (t : Mem) : jsonProcessExpr c (fuel + 1) (b ++ t) = operandsUpTo c fuel and bs >>= fun o =>
      pure ((o.map Prod.snd).getD (junctionUnit and)) := by
  rw [h.junction_eq (holds_flatten (hes.imp fun e b h => h.1)), operandsUpTo,
    map_places (hes.imp fun e b h => ⟨h.1, h.eq fuel⟩)]

section Laws

variable {and : Bool} {xs : List Element} {bs ys : List Mem}
  (hxs : List.Forall₂ IsOperand xs bs) (hys : List.Forall₂ (IsCall notName) bs ys)

include hxs hys

/-- The negated operands. -/
theorem exists_operands : ∃ es, List.Forall₂ IsOperand es ys := by
  induction hxs generalizing ys with
  | nil =>
      cases hys
      exact ⟨[], .nil⟩
  | cons hx hrest ih =>
      cases hys with
      | cons hy hys =>
          obtain ⟨es, hes⟩ := ih hys
          obtain ⟨e, he⟩ := hy.isOperand hx.1 hx.noEmpties
          exact ⟨e :: es, .cons he hes⟩

theorem map_negated (fuel : Nat) : ys.map (jsonProcessExpr c (fuel + 1)) =
    (bs.map (jsonProcessExpr c fuel)).map fun m => m >>= fun ret => pure (negate ret) := by
  induction hxs generalizing ys with
  | nil =>
      cases hys
      rfl
  | @cons x b xs bs hx hrest ih =>
      cases hys with
      | @cons _ y _ ys hy hys =>
          have hone := hy.negation_eq (c := c) hx.1 hx.2.1 fuel []
          rw [List.append_nil, List.append_nil] at hone
          rw [List.map_cons, List.map_cons, List.map_cons, hone, ih hys]

/-- The negated operands stop where the operands stop, with the negated value. -/
theorem operandsUpTo_negated (fuel : Nat) : operandsUpTo c (fuel + 1) (!and) ys =
    operandsUpTo c fuel and bs >>= fun o => pure (o.map fun p => (p.1, negate p.2)) := by
  rw [operandsUpTo, operandsUpTo, map_negated hxs hys, ← negate_unit]
  refine upTo_map (fun m hm => ?_) (fun ret hret => negate_eq_iff and hret) 1
  obtain ⟨b, -, rfl⟩ := List.mem_map.mp hm
  exact jsonProcessExpr_yields c fuel b

end Laws

/-- **De Morgan's laws.**  The negation of a junction and the other junction of the
negations have the same value and do the same; the loops over the operands stop at the
same one. -/
theorem not_junction_eq {and : Bool} {xs : List Element} {bs ys : List Mem} {a l r : Mem}
    (hxs : List.Forall₂ IsOperand xs bs) (hys : List.Forall₂ (IsCall notName) bs ys)
    (ha : IsCall (junctionName and) bs.flatten a) (hl : IsCall notName a l)
    (hr : IsCall (junctionName !and) ys.flatten r) (c : Call σ) (fuel : Nat) (t₁ t₂ : Mem) :
    jsonProcessExpr c (fuel + 2) (l ++ t₁) = jsonProcessExpr c (fuel + 2) (r ++ t₂) ∧
    operandsUpTo c (fuel + 1) (!and) ys =
      operandsUpTo c fuel and bs >>= (fun o => pure (o.map fun p => (p.1, negate p.2))) ∧
    ∀ vars s, HoldsVars vars c.vars → l.length ≤ fuel →
      ∃ ret s', jsonProcessExpr c (fuel + 2) (l ++ t₁) s = (some ret, s') ∧ IsTruth ret := by
  have hnegated : operandsUpTo c (fuel + 1) (!and) ys =
      operandsUpTo c fuel and bs >>= fun o => pure (o.map fun p => (p.1, negate p.2)) :=
    operandsUpTo_negated hxs hys fuel
  obtain ⟨es, hes⟩ := exists_operands hxs hys
  obtain ⟨x, hx⟩ := ha.isOperand (holds_flatten (hxs.imp fun e b h => h.1))
    (noEmpties_of_operands hxs)
  refine ⟨?_, hnegated, fun vars s hvars hfuel => ?_⟩
  · calc jsonProcessExpr c (fuel + 2) (l ++ t₁)
        = jsonProcessExpr c (fuel + 1) (a ++ t₁) >>= fun ret => pure (negate ret) :=
          hl.negation_eq hx.1 hx.2.1 (fuel + 1) t₁
      _ = operandsUpTo c fuel and bs >>= fun o =>
            pure (negate ((o.map Prod.snd).getD (junctionUnit and))) := by
          rw [ha.operands_eq hxs fuel t₁, bind_assoc]
          rfl
      _ = operandsUpTo c (fuel + 1) (!and) ys >>= fun o =>
            pure ((o.map Prod.snd).getD (junctionUnit !and)) := by
          rw [hnegated, bind_assoc]
          congr 1
          funext o
          cases o with
          | none => rw [pure_bind, ← negate_unit]; rfl
          | some p => rfl
      _ = jsonProcessExpr c (fuel + 2) (r ++ t₂) := (hr.operands_eq hes (fuel + 1) t₂).symm
  · obtain ⟨y, hy⟩ := hl.isOperand hx.1 hx.noEmpties
    exact exists_truth_of_not_strays hy.1 hvars (by omega) (not_strays_of_noEmpty hy.1 hy.2.2) t₁

/-- A call as the encoder writes it. -/
def callBytes (name args : Mem) : Mem := arrayBytes (stringBytes name ++ args)

theorem isCall_callBytes {name args : Mem} (hshort : name.length < 2 ^ 16)
    (hname : stringAt (stringBytes name) = some name)
    (h : (stringBytes name ++ args).length < 2 ^ 16) : IsCall name args (callBytes name args) :=
  ⟨_, stringBytes name, isArray_arrayBytes h, holds_stringBytes hshort, rfl, hname⟩

/-- `["has", "x"]`, and `["eq", "x"]`, which is an error. -/
def hasX : Mem := callBytes (ascii ['h', 'a', 's']) (stringBytes [120])

def eqX : Mem := callBytes (ascii ['e', 'q']) (stringBytes [120])

/-- `["not", ["and", ["has", "x"], ["eq", "x"]]]`. -/
def notBoth : Mem := callBytes notName (callBytes (junctionName true) [hasX, eqX].flatten)

def noneOfBoth : List Mem := [callBytes notName hasX, callBytes notName eqX]

theorem not_junction_eq_two :
    jsonProcessExpr quietCall 202 (notBoth ++ []) =
      jsonProcessExpr quietCall 202 (callBytes (junctionName false) noneOfBoth.flatten ++ andBytes) ∧
    operandsUpTo quietCall 201 false noneOfBoth = operandsUpTo quietCall 200 true [hasX, eqX] >>=
      (fun o => pure (o.map fun p => (p.1, negate p.2))) ∧
    ∀ vars s, HoldsVars vars quietCall.vars → notBoth.length ≤ 200 →
      ∃ ret s', jsonProcessExpr quietCall 202 (notBoth ++ []) s = (some ret, s') ∧ IsTruth ret := by
  have hshort : ([120] : Mem).length < 2 ^ 16 := by decide
  have hx := holds_stringBytes hshort
  have hhas : IsCall (ascii ['h', 'a', 's']) (stringBytes [120]) hasX :=
    isCall_callBytes (by decide) (by decide) (by decide)
  have heq : IsCall (ascii ['e', 'q']) (stringBytes [120]) eqX :=
    isCall_callBytes (by decide) (by decide) (by decide)
  obtain ⟨x₁, hx₁⟩ := hhas.isOperand hx ⟨trivial, trivial⟩
  obtain ⟨x₂, hx₂⟩ := heq.isOperand hx ⟨trivial, trivial⟩
  have hnot : ∀ b, (stringBytes notName ++ b).length < 2 ^ 16 →
      IsCall notName b (callBytes notName b) :=
    fun b => isCall_callBytes (by decide) (by decide)
  have hand : IsCall (junctionName true) [hasX, eqX].flatten
      (callBytes (junctionName true) [hasX, eqX].flatten) :=
    isCall_callBytes (by decide) (by decide) (by decide)
  exact not_junction_eq (.cons hx₁ (.cons hx₂ .nil))
    (.cons (hnot _ (by decide)) (.cons (hnot _ (by decide)) .nil)) hand
    (hnot _ (by decide))
    (isCall_callBytes (by decide) (by decide) (by decide)) quietCall 200 [] andBytes

end Libubox.JsonScript
