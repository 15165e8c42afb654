import Libubox.Avl.Run
import Mathlib.Data.Nat.Fib.Basic
import Mathlib.Data.Nat.Log

/-!
# How deep a search goes

A balanced tree of a given height has at least as many nodes as a Fibonacci number says
(`fib_height_le`), so that in a tree of `n` nodes `avl_find_rec` calls itself no more than
about `2 * log n` times (`avlFind_depth`).
-/

namespace Libubox.Avl

open Trees Skeleton Circles

variable {ν κ : Type*}

/-! ## Heights -/

/-- The smallest balanced trees are the Fibonacci trees. -/
theorem fib_height_le {s : BinTree ν} (h : s.Balanced) :
    Nat.fib (s.height + 2) ≤ s.toList.length + 1 := by
  induction s with
  | nil => exact le_rfl
  | node l x r ihl ihr =>
      obtain ⟨hlr, hrl, hl, hr⟩ := h
      have hlow := ihl hl
      have hhigh := ihr hr
      have hstep : ∀ n, Nat.fib (n + 3) = Nat.fib (n + 1) + Nat.fib (n + 2) :=
        fun _ => Nat.fib_add_two
      simp only [BinTree.height, BinTree.toList_node, List.length_append, List.length_cons]
      rcases Nat.le_total l.height r.height with hle | hle
      · have hmono : Nat.fib (r.height + 1) ≤ Nat.fib (l.height + 2) :=
          Nat.fib_mono (Nat.succ_le_succ hrl)
        have hheight : 1 + max l.height r.height + 2 = r.height + 3 := by omega
        rw [hheight, hstep]
        omega
      · have hmono : Nat.fib (l.height + 1) ≤ Nat.fib (r.height + 2) :=
          Nat.fib_mono (Nat.succ_le_succ hlr)
        have hheight : 1 + max l.height r.height + 2 = l.height + 3 := by omega
        rw [hheight, hstep]
        omega

/-- Fibonacci numbers double every other time. -/
theorem two_pow_le_fib (k : Nat) : 2 ^ k ≤ Nat.fib (2 * k + 2) := by
  induction k with
  | zero => exact le_rfl
  | succ k ih =>
      have hmono : Nat.fib (2 * k + 2) ≤ Nat.fib (2 * k + 3) := Nat.fib_le_fib_succ
      have hstep : Nat.fib (2 * k + 4) = Nat.fib (2 * k + 2) + Nat.fib (2 * k + 3) :=
        Nat.fib_add_two
      rw [Nat.mul_add, Nat.pow_succ, hstep]
      omega

/-- A tree of `n` nodes has at most `2 * log n + 1` levels. -/
theorem height_le_log {s : BinTree ν} (h : s.Balanced) :
    s.height ≤ 2 * Nat.log 2 (s.toList.length + 1) + 1 := by
  by_contra hlt
  have hpow := two_pow_le_fib (Nat.log 2 (s.toList.length + 1) + 1)
  have hmono : Nat.fib (2 * (Nat.log 2 (s.toList.length + 1) + 1) + 2) ≤ Nat.fib (s.height + 2) :=
    Nat.fib_mono (by omega)
  have hfib := fib_height_le h
  have hlog := Nat.lt_pow_succ_log_self (Nat.one_lt_two) (s.toList.length + 1)
  omega

/-! ## Searches -/

section Searches

variable {comp : κ → κ → Int} {t : AvlTree ν κ} {s : BinTree ν} {p : Option ν} {key : κ} {node : ν}

/-- As many calls as there are levels are enough. -/
theorem avlFindRec_fuel {fuel fuel' : Nat} (hsub : Sub t.toSkeleton p s) (hroot : s.root = some node)
    (hfuel : s.height ≤ fuel) (hfuel' : s.height ≤ fuel') :
    t.avlFindRec comp key fuel node = t.avlFindRec comp key fuel' node := by
  induction s generalizing p node fuel fuel' with
  | nil => cases hroot
  | node l x r ihl ihr =>
      cases hroot
      obtain ⟨hknot, hl, hr⟩ := hsub
      simp only [BinTree.height] at hfuel hfuel'
      obtain ⟨fuel, rfl⟩ := Nat.exists_eq_succ_of_ne_zero (by omega : fuel ≠ 0)
      obtain ⟨fuel', rfl⟩ := Nat.exists_eq_succ_of_ne_zero (by omega : fuel' ≠ 0)
      have hleft : ∀ y, l.root = some y →
          t.avlFindRec comp key fuel y = t.avlFindRec comp key fuel' y :=
        fun y hy => ihl hl hy (by omega) (by omega)
      have hright : ∀ y, r.root = some y →
          t.avlFindRec comp key fuel y = t.avlFindRec comp key fuel' y :=
        fun y hy => ihr hr hy (by omega) (by omega)
      rw [AvlTree.avlFindRec, AvlTree.avlFindRec, hknot]
      cases hl : l.root with
      | none =>
          cases hr : r.root with
          | none => rfl
          | some y => simp only [hright y hr]
      | some y =>
          cases hr : r.root with
          | none => simp only [hleft y hl]
          | some z => simp only [hleft y hl, hright z hr]

/-- **`avl_find` in a tree of `n` nodes looks at no more than `2 * log n + 1` of them**, up to
rounding; it returns the node with the key, if there is one. -/
theorem avlFind_depth [DecidableEq ν] {listHead : ν} {allowDups : Bool} {born : List ν}
    (hcomp : TotalPreorder comp) (h : Reachable comp listHead allowDups t born) (key : κ) {fuel : Nat}
    (hfuel : 2 * Nat.log 2 (born.length + 1) + 1 ≤ fuel) :
    ∃ found, t.avlFind comp fuel key = some found ∧
      (∀ m, found = some m → m ∈ born ∧ comp key (t.key m) = 0) ∧
      (found = none ↔ ∀ y ∈ born, comp key (t.key y) ≠ 0) := by
  obtain ⟨⟨gs, hsound⟩, -, -⟩ := h.runs hcomp
  obtain ⟨found, hfind, hsome, hnone⟩ := hsound.found hcomp (Nat.lt_succ_self born.length) key
  have hleader : ∀ m, m ∈ gs.map Prod.fst → m ∈ born := fun m hm =>
    hsound.perm.mem_iff.mp ((leaders_sublist gs).subset hm)
  refine ⟨found, ?_, fun m hm => ⟨hleader m (hsome m hm).1, (hsome m hm).2⟩, hnone⟩
  obtain ⟨s, hrep, hbal, hs⟩ := hsound.tree
  have hlength : s.toList.length ≤ born.length := by
    rw [hs, ← hsound.perm.length_eq]
    exact (leaders_sublist gs).length_le
  have hheight : s.height ≤ fuel := by
    have hlog : Nat.log 2 (s.toList.length + 1) ≤ Nat.log 2 (born.length + 1) :=
      Nat.log_mono_right (by omega)
    have hlevels := height_le_log hbal
    omega
  have hheight' : s.height ≤ born.length + 1 := by
    have := BinTree.height_le_length s
    omega
  rw [← hfind, AvlTree.avlFind, AvlTree.avlFind]
  cases hroot : t.root with
  | none => rfl
  | some root =>
      have hsroot : s.root = some root := hrep.1.symm.trans hroot
      simp only [avlFindRec_fuel hrep.2 hsroot hheight hheight']

/-- A tree of seven nodes. -/
theorem avlFind_depth_seven :
    TotalPreorder natComp ∧ ∃ t : AvlTree Nat Nat, Reachable natComp 0 false t (List.range' 1 7) ∧
      2 * Nat.log 2 ((List.range' 1 7).length + 1) + 1 ≤ 7 ∧
      ∃ found, t.avlFind natComp 7 4 = some found ∧
        (∀ m, found = some m → m ∈ List.range' 1 7 ∧ natComp 4 (t.key m) = 0) ∧
        (found = none ↔ ∀ y ∈ List.range' 1 7, natComp 4 (t.key y) ≠ 0) := by
  obtain ⟨t, ht, -⟩ := reachable_count false 7
  have hfuel : 2 * Nat.log 2 ((List.range' 1 7).length + 1) + 1 ≤ 7 := by
    decide
  exact ⟨natComp_preorder, t, ht, hfuel, avlFind_depth natComp_preorder ht 4 hfuel⟩

end Searches

end Libubox.Avl
