import Libubox.Lib.Circle
import Libubox.Lib.Hooks
import Libubox.Lib.Walks
import Mathlib.Data.List.Perm.Subperm

/-!
# Safe lists

`safe_list.c` over its pointers.  An element or a list head has the ring
pointers `list` and the chain `i` of the iterators that go on with it.  The
iterator of a call of `safe_list_for_each` lives on the stack, so its address is
the number of calls outside it, and what it holds at first is arbitrary.

A step is one thing a callback does: a call of the interface, or its return to
`safe_list_for_each`.  A null pointer that is followed makes it `none`.
-/

namespace Libubox.SafeList

open Walks (Action Event)
open Hooks (Slot)

variable {ν : Type*}

/-- The memory, and the calls of `safe_list_for_each` that have not returned, the
innermost first. -/
structure State (ν : Type*) where
  /-- `list.next` and `list.prev`. -/
  list : Circles.Links ν
  /-- `i` of the elements and heads, `next_i` and `head` of the iterators. -/
  i : Hooks.Links ν Nat
  /-- `next` of the iterators. -/
  next : Nat → ν
  calls : List ν

namespace State

variable [DecidableEq ν]

/-! ## Iterators -/

/-- `__safe_list_set_iterator`. -/
def setIterator (s : State ν) (list : ν) (i : Nat) : Option (State ν) :=
  (s.list.next list).map fun next =>
    { s with i := s.i.insert i (.hook next), next := Function.update s.next i next }

/-- `__safe_list_del_iterator`. -/
def delIterator (s : State ν) (i : Nat) : State ν := { s with i := s.i.remove i }

/-- `__safe_list_move_iterator`. -/
def moveIterator (s : State ν) (list : ν) (i : Nat) : Option (State ν) :=
  (s.delIterator i).setIterator list i

/-! ## Elements -/

/-- `safe_list_add`. -/
def safeListAdd (s : State ν) (list head : ν) : Option (State ν) :=
  (s.list.prev head).map fun prev =>
    { s with i := s.i.setHeld (.hook list) none, list := s.list.add list prev head }

/-- `safe_list_add_first`. -/
def safeListAddFirst (s : State ν) (list head : ν) : Option (State ν) :=
  (s.list.next head).map fun next =>
    { s with i := s.i.setHeld (.hook list) none, list := s.list.add list head next }

/-- The loop of `safe_list_del` from the iterator `i` on: `next` of the iterators,
and the slot where their chain ends. -/
def retarget (links : Hooks.Links ν Nat) (next : ν) :
    Nat → Nat → (Nat → ν) → Option ((Nat → ν) × Slot ν Nat)
  | 0, _, _ => none
  | fuel + 1, i, nexts =>
      match links.held (.next i) with
      | none => some (Function.update nexts i next, .next i)
      | some j => retarget links next fuel j (Function.update nexts i next)

/-- `safe_list_del`. -/
def safeListDel (s : State ν) (list : ν) : Option (State ν) :=
  (s.list.next list).bind fun next =>
    (s.list.del list).bind fun links =>
      match s.i.held (.hook list) with
      | none => some { s with list := links }
      | some i =>
          (retarget s.i next s.calls.length i s.next).map fun (nexts, tail) =>
            { s with
              list := links
              i := s.i.splice (.hook list) tail (.hook next)
              next := nexts }

/-! ## Iterations -/

/-- The condition of the loop, on the element `cur`: the callback is called, or
the call returns. -/
def loop (s : State ν) (head : ν) (outer : List ν) (cur : ν) : State ν × Event ν :=
  if cur = head then
    ({ s.delIterator outer.length with calls := outer }, .finish outer.length true)
  else ({ s with calls := head :: outer }, .visit outer.length cur)

/-- A callback calls a function of the interface, or returns 0 (`next`) or
something else (`stop`). -/
def step (s : State ν) : Action ν ν → Option (State ν × Event ν)
  | .start head =>
      (s.list.next head).bind fun cur =>
        (s.setIterator cur s.calls.length).map fun s' => s'.loop head s.calls cur
  | .next =>
      match s.calls with
      | [] => none
      | head :: outer =>
          (s.moveIterator (s.next outer.length) outer.length).map fun s' =>
            s'.loop head outer (s.next outer.length)
  | .stop =>
      match s.calls with
      | [] => none
      | _ :: outer =>
          some ({ s.delIterator outer.length with calls := outer }, .finish outer.length false)
  | .del list => (s.safeListDel list).map fun s => (s, .silent)
  | .add list head => (s.safeListAdd list head).map fun s => (s, .silent)
  | .addFirst list head => (s.safeListAddFirst list head).map fun s => (s, .silent)

end State

/-! ## Registered iterators -/

open Hooks (Hung Seg Chain)

variable {known : ν → Prop}

/-- The first `n` iterators hang, each on the element it goes on with, and no
others do. -/
def Registered (known : ν → Prop) (i : Hooks.Links ν Nat) (next : Nat → ν) (n : Nat) : Prop :=
  ∃ r, Hung known i r ∧ ∀ b k, k ∈ r b ↔ k < n ∧ next k = b

variable {i : Hooks.Links ν Nat} {next : Nat → ν} {n : Nat} {b c : ν}

/-- Nothing hangs on an element that no iterator goes on with. -/
theorem Registered.held_eq_none (h : Registered known i next n) (hb : known b) :
    i.held (.hook b) = none ↔ ∀ k < n, next k ≠ b := by
  obtain ⟨r, hung, hr⟩ := h
  rw [(hung.chain b hb).held, List.head?_eq_none_iff, List.eq_nil_iff_forall_not_mem]
  constructor
  · intro hnil k hk hkb
    exact hnil k ((hr b k).mpr ⟨hk, hkb⟩)
  · intro hne k hk
    obtain ⟨hkn, hkb⟩ := (hr b k).mp hk
    exact hne k hkn hkb

/-- The loop of `safe_list_del` walks one chain. -/
theorem retarget_eq {p tail : Slot ν Nat} {j : Nat} {ks : List Nat} {fuel : Nat}
    (hseg : Seg i p (j :: ks) tail) (hend : i.held tail = none) (hfuel : ks.length < fuel) :
    State.retarget i c fuel j next = some (fun k => if k ∈ j :: ks then c else next k, tail) := by
  obtain ⟨-, -, hrest⟩ := hseg
  induction ks generalizing j next fuel with
  | nil =>
      obtain ⟨fuel, rfl⟩ := Nat.exists_eq_add_of_lt hfuel
      obtain rfl : .next j = tail := hrest
      simp only [State.retarget, hend]
      congr 2
      funext k
      simp [Function.update_apply]
  | cons j' ks ih =>
      obtain ⟨fuel, rfl⟩ := Nat.exists_eq_succ_of_ne_zero (Nat.ne_of_gt (Nat.zero_lt_of_lt hfuel))
      obtain ⟨hheld, -, hrest⟩ := hrest
      simp only [State.retarget, hheld]
      rw [ih (Nat.lt_of_succ_lt_succ hfuel) hrest]
      congr 2
      funext k
      by_cases hk : k ∈ j' :: ks
      · simp [hk]
      · simp [hk, Function.update_apply, List.mem_cons (a := k) (b := j)]

variable [DecidableEq ν]

theorem Registered.push (h : Registered known i next n) (hb : known b) :
    Registered known (i.insert n (.hook b)) (Function.update next n b) (n + 1) := by
  obtain ⟨r, hung, hr⟩ := h
  have hn : ∀ c, n ∉ r c := fun c hmem => absurd ((hr c n).mp hmem).1 (lt_irrefl n)
  refine ⟨_, hung.insert hb hn, ?_⟩
  intro c k
  by_cases hk : k = n
  · subst hk
    by_cases hcb : c = b
    · subst hcb
      simp
    · simp [Function.update_of_ne hcb, hn c, Ne.symm hcb]
  · have hlt : k < n + 1 ↔ k < n := by omega
    by_cases hcb : c = b
    · subst hcb
      simp [hk, hr, hlt]
    · simp [Function.update_of_ne hcb, hk, hr, hlt]

theorem Registered.pop (h : Registered known i next (n + 1)) (hb : known (next n)) :
    Registered known (i.remove n) next n := by
  obtain ⟨r, hung, hr⟩ := h
  refine ⟨_, hung.remove hb ((hr _ n).mpr ⟨Nat.lt_succ_self n, rfl⟩), ?_⟩
  intro c k
  have hlt : k < n + 1 ∧ k ≠ n ↔ k < n := by omega
  simp only [List.mem_filter, hr, decide_eq_true_eq]
  tauto

/-- The iterators that go on with `b` go on with `c` instead. -/
theorem Registered.move {j : Nat} (h : Registered known i next n) (hb : known b) (hc : known c)
    (hbc : b ≠ c) (hj : i.held (.hook b) = some j) :
    ∃ nexts tail, State.retarget i c n j next = some (nexts, tail) ∧
      Registered known (i.splice (.hook b) tail (.hook c)) nexts n ∧
      ∀ k < n, nexts k = if next k = b then c else next k := by
  obtain ⟨r, hung, hr⟩ := h
  obtain ⟨tail, hseg, hend⟩ := hung.chain b hb
  have hhead := (hung.chain b hb).held
  rw [hj] at hhead
  obtain ⟨ks, hks⟩ := List.head?_eq_some_iff.mp hhead.symm
  have hlength : (r b).length ≤ n := by
    have hsub : r b ⊆ List.range n := fun k hk => List.mem_range.mpr ((hr b k).mp hk).1
    simpa using (List.subperm_of_subset (hung.nodup b) hsub).length_le
  rw [hks] at hseg hlength
  have hmem : ∀ k < n, k ∈ j :: ks ↔ next k = b := by
    intro k hk
    rw [← hks, hr]
    exact and_iff_right hk
  have hnexts : ∀ k < n, (if k ∈ j :: ks then c else next k)
      = if next k = b then c else next k := by
    intro k hk
    simp only [hmem k hk]
  have hsplice := hung.splice hb hc hbc (by simp [hks]) (hks ▸ hseg)
  refine ⟨_, tail, retarget_eq hseg hend hlength, ⟨_, hsplice, ?_⟩, hnexts⟩
  intro d k
  by_cases hkn : k < n
  · simp only [hnexts k hkn]
    by_cases hdb : d = b
    · subst hdb
      by_cases hkb : next k = d
      · simp [hkb, hbc.symm]
      · simp [hkb]
    rw [Function.update_of_ne hdb]
    by_cases hdc : d = c
    · subst hdc
      by_cases hkb : next k = b
      · simp [hr, hkn, hkb]
      · simp [hr, hkn, hkb]
    · rw [Function.update_of_ne hdc, hr]
      by_cases hkb : next k = b
      · simp [hkb, Ne.symm hdb, Ne.symm hdc]
      · simp [hkb]
  · have hnone : ∀ d, k ∉ r d := fun d hmem => hkn ((hr d k).mp hmem).1
    by_cases hdb : d = b
    · subst hdb
      simp [hkn]
    rw [Function.update_of_ne hdb]
    by_cases hdc : d = c
    · subst hdc
      simp [hkn, hnone]
    · simp [Function.update_of_ne hdc, hkn, hnone]

/-- An element that nothing goes on with is made known with an empty chain. -/
theorem Registered.clear (h : Registered known i next n) (hb : ∀ k < n, next k ≠ b) :
    Registered (fun d => known d ∨ d = b) (i.setHeld (.hook b) none) next n := by
  obtain ⟨r, hung, hr⟩ := h
  have hnil : r b = [] := by
    rw [List.eq_nil_iff_forall_not_mem]
    intro k hk
    obtain ⟨hkn, hkb⟩ := (hr b k).mp hk
    exact hb k hkn hkb
  refine ⟨r, ⟨?_, hung.nodup, hung.disjoint⟩, hr⟩
  intro d hd
  by_cases hdb : d = b
  · subst hdb
    rw [hnil]
    exact ⟨.hook d, rfl, by simp⟩
  · refine hung.frame (hd.resolve_right hdb) ?_ ?_ ?_
    · simp [hdb]
    · simp
    · simp

end Libubox.SafeList
