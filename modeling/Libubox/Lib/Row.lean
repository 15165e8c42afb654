import Libubox.Lib.Circle

/-!
# Rows of nodes

Doubly linked lists that end in null pointers.  `Row l xs` says that the pointers of
each node of `xs` lead to its neighbours.  A change at one place of a row is a
`Row.splice`: at most one node goes out, and at most one comes in.
-/

namespace Rows

open Circles (Links)

variable {ν : Type*}

/-- The pointers of each node lead to the one after it and the one before it. -/
def Row (l : Links ν) (xs : List ν) : Prop :=
  ∀ as a bs, xs = as ++ a :: bs → l.next a = bs.head? ∧ l.prev a = as.getLast?

variable {l l' : Links ν} {xs as bs : List ν}

theorem row_nil : Row l [] := by
  intro as a bs heq
  exact absurd heq (by simp)

/-- The frame rule. -/
theorem Row.frame (h : Row l xs) (heq : ∀ a ∈ xs, l'.next a = l.next a ∧ l'.prev a = l.prev a) :
    Row l' xs := by
  intro as a bs hxs
  have ha : a ∈ xs := by
    rw [hxs]
    exact List.mem_append_right as List.mem_cons_self
  rw [(heq a ha).1, (heq a ha).2]
  exact h as a bs hxs

/-- Where a node lies that is found in two lists after each other. -/
theorem append_eq_append_cons {ys us vs : List ν} {x : ν} (h : xs ++ ys = us ++ x :: vs) :
    (∃ ws, xs = us ++ x :: ws ∧ vs = ws ++ ys) ∨ ∃ ws, us = xs ++ ws ∧ ys = ws ++ x :: vs := by
  rcases List.append_eq_append_iff.mp h with ⟨ws, hus, hys⟩ | ⟨ws, hxs, hvs⟩
  · exact .inr ⟨ws, hus, hys⟩
  · cases ws with
    | nil => exact .inr ⟨[], by simpa using hxs.symm, hvs.symm⟩
    | cons w ws =>
        obtain ⟨rfl, rfl⟩ := List.cons.inj hvs
        exact .inl ⟨ws, hxs, rfl⟩

/-- **A change of a row** at one place. -/
theorem Row.splice {mid mid' : Option ν} (h : Row l (as ++ (mid.toList ++ bs)))
    (hnodup : (as ++ bs).Nodup)
    (hnext : ∀ a ∈ as ++ bs, as.getLast? ≠ some a → l'.next a = l.next a)
    (hprev : ∀ a ∈ as ++ bs, bs.head? ≠ some a → l'.prev a = l.prev a)
    (hlast : ∀ a, as.getLast? = some a → l'.next a = (mid'.toList ++ bs).head?)
    (hhead : ∀ b, bs.head? = some b → l'.prev b = (as ++ mid'.toList).getLast?)
    (hmid : ∀ x ∈ mid', l'.next x = bs.head? ∧ l'.prev x = as.getLast?) :
    Row l' (as ++ (mid'.toList ++ bs)) := by
  obtain ⟨hnas, hnbs, hdisj⟩ := List.nodup_append.mp hnodup
  intro us x vs heq
  rcases append_eq_append_cons heq with ⟨ws, has, hvs⟩ | ⟨ws, hus, hrest⟩
  · -- a node in front of the change
    have hx : x ∈ as := by
      rw [has]
      exact List.mem_append_right us List.mem_cons_self
    obtain ⟨hxn, hxp⟩ := h us x (ws ++ (mid.toList ++ bs)) (by rw [has]; simp)
    have hprevx : l'.prev x = us.getLast? := by
      rw [hprev x (List.mem_append_left bs hx), hxp]
      intro hb
      exact hdisj x hx x (List.mem_of_mem_head? hb) rfl
    refine ⟨?_, hprevx⟩
    rw [hvs]
    rcases List.eq_nil_or_concat ws with rfl | ⟨ws', w, rfl⟩
    · exact hlast x (by rw [has, List.getLast?_concat])
    · rw [hnext x (List.mem_append_left bs hx), hxn]
      · cases ws' with
        | nil => rfl
        | cons _ _ => rfl
      · intro hlastx
        rw [has, List.nodup_append] at hnas
        have hw : some w = some x := by
          rw [← hlastx, has, List.concat_eq_append, ← List.cons_append, ← List.append_assoc,
            List.getLast?_concat]
        obtain rfl := Option.some.inj hw
        exact (List.nodup_cons.mp hnas.2.1).1 (by simp)
  · rcases append_eq_append_cons hrest with ⟨ws', hmid', hvs⟩ | ⟨ws', hws, hbs⟩
    · -- the node that comes in
      cases mid' with
      | none => exact absurd hmid' (by simp)
      | some z =>
          obtain ⟨rfl, rfl, rfl⟩ : ws = [] ∧ x = z ∧ ws' = [] := by
            simpa [List.singleton_eq_append_iff, List.cons_eq_append_iff] using hmid'
          rw [hvs, hus, List.nil_append, List.append_nil]
          exact hmid x rfl
    · -- a node behind the change
      have hx : x ∈ bs := by
        rw [hbs]
        exact List.mem_append_right ws' List.mem_cons_self
      obtain ⟨hxn, hxp⟩ := h (as ++ (mid.toList ++ ws')) x vs (by rw [hbs]; simp)
      have hnextx : l'.next x = vs.head? := by
        rw [hnext x (List.mem_append_right as hx), hxn]
        intro ha
        exact hdisj x (List.mem_of_mem_getLast? ha) x hx rfl
      refine ⟨hnextx, ?_⟩
      rw [hus, hws, ← List.append_assoc]
      cases ws' with
      | nil =>
          rw [List.append_nil]
          exact hhead x (by rw [hbs]; rfl)
      | cons w ws' =>
          rw [hprev x (List.mem_append_right as hx), hxp]
          · rw [List.getLast?_append, List.getLast?_append, List.getLast?_append]
            simp [List.getLast?_cons]
          · intro hheadx
            rw [hbs] at hheadx hnbs
            obtain rfl : w = x := Option.some.inj hheadx
            rw [List.cons_append] at hnbs
            exact (List.nodup_cons.mp hnbs).1 (by simp)

/-! ## The operations -/

theorem getLast?_ne {x : ν} (h : x ∉ as) : as.getLast? ≠ some x :=
  fun heq => h (List.mem_of_mem_getLast? heq)

theorem head?_ne {x : ν} (h : x ∉ bs) : bs.head? ≠ some x :=
  fun heq => h (List.mem_of_mem_head? heq)

variable [DecidableEq ν]

/-- The `next` of the node `o`, if it is one, is set to `v`. -/
def setNext (l : Links ν) (o v : Option ν) : Links ν :=
  { l with next := fun x => if o = some x then v else l.next x }

/-- The `prev` of the node `o`, if it is one, is set to `v`. -/
def setPrev (l : Links ν) (o v : Option ν) : Links ν :=
  { l with prev := fun x => if o = some x then v else l.prev x }

@[simp] theorem setNext_next (l : Links ν) (o v : Option ν) (x : ν) :
    (setNext l o v).next x = if o = some x then v else l.next x := rfl

@[simp] theorem setNext_prev (l : Links ν) (o v : Option ν) : (setNext l o v).prev = l.prev := rfl

@[simp] theorem setPrev_prev (l : Links ν) (o v : Option ν) (x : ν) :
    (setPrev l o v).prev x = if o = some x then v else l.prev x := rfl

@[simp] theorem setPrev_next (l : Links ν) (o v : Option ν) : (setPrev l o v).next = l.next := rfl

theorem setNext_none (l : Links ν) (v : Option ν) : setNext l none v = l := rfl

theorem setPrev_none (l : Links ν) (v : Option ν) : setPrev l none v = l := rfl

theorem setNext_some (l : Links ν) (c : ν) (v : Option ν) :
    setNext l (some c) v = { l with next := Function.update l.next c v } := by
  have hupdate : Function.update l.next c v = fun x => if some c = some x then v else l.next x := by
    funext x
    simp only [Function.update_apply, Option.some.injEq, @eq_comm _ c x]
  rw [setNext, hupdate]

theorem setPrev_some (l : Links ν) (c : ν) (v : Option ν) :
    setPrev l (some c) v = { l with prev := Function.update l.prev c v } := by
  have hupdate : Function.update l.prev c v = fun x => if some c = some x then v else l.prev x := by
    funext x
    simp only [Function.update_apply, Option.some.injEq, @eq_comm _ c x]
  rw [setPrev, hupdate]

/-- A node is hung behind the last one. -/
theorem Row.append {z : ν} (h : Row l xs) (hnodup : xs.Nodup) (hz : z ∉ xs)
    (hnext : l.next z = none) :
    Row (setPrev (setNext l xs.getLast? (some z)) (some z) xs.getLast?) (xs ++ [z]) := by
  have h' : Row l (xs ++ ((none : Option ν).toList ++ [])) := by simpa using h
  have hsplice := @Row.splice _ l
    (setPrev (setNext l xs.getLast? (some z)) (some z) xs.getLast?) xs [] none (some z) h'
    (by simpa using hnodup)
  refine hsplice ?_ ?_ ?_ ?_ ?_
  · intro a _ hne
    simp [hne]
  · intro a ha _
    have hne : z ≠ a := by
      rintro rfl
      exact hz (by simpa using ha)
    simp [hne]
  · intro a ha
    simp [ha]
  · intro b hb
    cases hb
  · intro x hx
    cases hx
    simp [getLast?_ne hz, hnext]

/-- A node is taken out. -/
theorem Row.remove {c : ν} (h : Row l (as ++ c :: bs)) (hnodup : (as ++ c :: bs).Nodup) :
    Row (setPrev (setNext (setPrev (setNext l as.getLast? bs.head?) bs.head? as.getLast?)
      (some c) none) (some c) none) (as ++ bs) := by
  obtain ⟨hc, hrest⟩ := List.nodup_cons.mp ((List.perm_middle.nodup_iff).mp hnodup)
  refine @Row.splice _ l _ as bs (some c) none h hrest ?_ ?_ ?_ ?_ ?_
  · intro a ha hne
    have hca : c ≠ a := fun heq => hc (heq ▸ ha)
    simp [hca, hne]
  · intro a ha hne
    have hca : c ≠ a := fun heq => hc (heq ▸ ha)
    simp [hca, hne]
  · intro a ha
    have hca : c ≠ a := fun heq =>
      hc (List.mem_append_left bs (heq ▸ List.mem_of_mem_getLast? ha))
    simp [hca, ha]
  · intro b hb
    have hcb : c ≠ b := fun heq =>
      hc (List.mem_append_right as (heq ▸ List.mem_of_mem_head? hb))
    simp [hcb, hb]
  · intro x hx
    cases hx

/-- A node takes the place of another one. -/
theorem Row.replace {c z : ν} (h : Row l (as ++ c :: bs)) (hnodup : (as ++ c :: bs).Nodup)
    (hz : z ∉ as ++ c :: bs) :
    Row (setNext (setPrev (setNext (setPrev (setPrev (setNext l (some z) bs.head?)
      (some z) as.getLast?) bs.head? (some z)) as.getLast? (some z)) (some c) none)
      (some c) none) (as ++ z :: bs) := by
  obtain ⟨hc, hrest⟩ := List.nodup_cons.mp ((List.perm_middle.nodup_iff).mp hnodup)
  have hzs : z ∉ as ∧ z ≠ c ∧ z ∉ bs := by simpa using hz
  obtain ⟨hzas, hzc, hzbs⟩ := hzs
  have hzrest : ∀ a ∈ as ++ bs, z ≠ a := by
    rintro a ha rfl
    rcases List.mem_append.mp ha with ha | ha
    · exact hzas ha
    · exact hzbs ha
  refine @Row.splice _ l _ as bs (some c) (some z) h hrest ?_ ?_ ?_ ?_ ?_
  · intro a ha hne
    have hca : c ≠ a := fun heq => hc (heq ▸ ha)
    simp [hca, hne, hzrest a ha]
  · intro a ha hne
    have hca : c ≠ a := fun heq => hc (heq ▸ ha)
    simp [hca, hne, hzrest a ha]
  · intro a ha
    have hca : c ≠ a := fun heq =>
      hc (List.mem_append_left bs (heq ▸ List.mem_of_mem_getLast? ha))
    simp [hca, ha]
  · intro b hb
    have hcb : c ≠ b := fun heq =>
      hc (List.mem_append_right as (heq ▸ List.mem_of_mem_head? hb))
    simp [hcb, hb]
  · intro x hx
    cases hx
    simp [hzc.symm, getLast?_ne hzas, head?_ne hzbs]

end Rows
