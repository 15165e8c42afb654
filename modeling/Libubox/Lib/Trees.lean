import Mathlib.Data.List.Nodup
import Mathlib.Tactic.Tauto

/-!
# Binary trees and places in them

A tree is handled from either side: `join d a x b` has `a` on the side `d` of
`x` and `b` on the other.  A place in a tree is the list of the frames above it,
the innermost first; `plug` puts a subtree there.

`BinTree.Balanced` is the height condition of AVL trees and `Fits c n` what it asks
of the frames around a place when the subtree there has height `n`
(`balanced_plug`).  The nodes in order are `toList`, and around a place they are
`before`, the subtree and `after` (`toList_plug`).
-/

namespace Trees

variable {ν : Type*}

/-- A side of a node. -/
inductive Side where
  | left
  | right
  deriving DecidableEq

def Side.flip : Side → Side
  | left => right
  | right => left

@[simp] theorem Side.flip_flip (d : Side) : d.flip.flip = d := by
  cases d <;> rfl

theorem Side.flip_ne (d : Side) : d.flip ≠ d := by
  cases d <;> decide

/-- A binary tree. -/
inductive BinTree (ν : Type*) where
  | nil
  | node (l : BinTree ν) (x : ν) (r : BinTree ν)

namespace BinTree

def root : BinTree ν → Option ν
  | nil => none
  | node _ x _ => some x

/-- The nodes in order. -/
def toList : BinTree ν → List ν
  | nil => []
  | node l x r => l.toList ++ x :: r.toList

@[simp] theorem toList_nil : (nil : BinTree ν).toList = [] := rfl

@[simp] theorem toList_node (l : BinTree ν) (x : ν) (r : BinTree ν) :
    (node l x r).toList = l.toList ++ x :: r.toList := rfl

def height : BinTree ν → Nat
  | nil => 0
  | node l _ r => 1 + max l.height r.height

/-- The heights below a node differ by one at most. -/
def Balanced : BinTree ν → Prop
  | nil => True
  | node l _ r => l.height ≤ r.height + 1 ∧ r.height ≤ l.height + 1 ∧ l.Balanced ∧ r.Balanced

/-- The node `x` with `a` on the side `d` and `b` on the other. -/
def join : Side → BinTree ν → ν → BinTree ν → BinTree ν
  | .left, a, x, b => node a x b
  | .right, a, x, b => node b x a

@[simp] theorem root_join (d : Side) (a : BinTree ν) (x : ν) (b : BinTree ν) :
    (join d a x b).root = some x := by
  cases d <;> rfl

@[simp] theorem height_join (d : Side) (a : BinTree ν) (x : ν) (b : BinTree ν) :
    (join d a x b).height = 1 + max a.height b.height := by
  cases d
  · rfl
  · simp only [join, height, Nat.max_comm]

@[simp] theorem join_flip (d : Side) (a : BinTree ν) (x : ν) (b : BinTree ν) :
    join d.flip a x b = join d b x a := by
  cases d <;> rfl

theorem balanced_join {d : Side} {a b : BinTree ν} {x : ν} : (join d a x b).Balanced ↔
    a.height ≤ b.height + 1 ∧ b.height ≤ a.height + 1 ∧ a.Balanced ∧ b.Balanced := by
  cases d
  · rfl
  · simp only [join, Balanced]
    tauto

theorem mem_toList_join {d : Side} {a b : BinTree ν} {x y : ν} :
    y ∈ (join d a x b).toList ↔ y = x ∨ y ∈ a.toList ∨ y ∈ b.toList := by
  cases d <;> simp only [join, toList_node, List.mem_append, List.mem_cons] <;> tauto

/-- The order does not change when a child is lifted. -/
theorem toList_lift (d : Side) (a : BinTree ν) (y : ν) (e : BinTree ν) (x : ν) (b : BinTree ν) :
    (join d a y (join d e x b)).toList = (join d (join d a y e) x b).toList := by
  cases d <;> simp [join]

theorem toList_lift_twice (d : Side) (a : BinTree ν) (x : ν) (e₁ : BinTree ν) (z : ν) (e₂ : BinTree ν) (y : ν)
    (b : BinTree ν) : (join d (join d a x e₁) z (join d e₂ y b)).toList
      = (join d (join d a x (join d e₁ z e₂)) y b).toList := by
  cases d <;> simp [join]

theorem perm_join (d : Side) (a : BinTree ν) (x : ν) (b : BinTree ν) :
    (join d a x b).toList.Perm (x :: (a.toList ++ b.toList)) := by
  cases d
  · exact List.perm_middle
  · exact List.perm_middle.trans (List.perm_append_comm.cons x)

theorem exists_join {s : BinTree ν} (d : Side) (h : s.height ≠ 0) :
    ∃ a x b, s = join d a x b := by
  cases s with
  | nil => exact absurd rfl h
  | node l x r =>
      cases d
      · exact ⟨l, x, r, rfl⟩
      · exact ⟨r, x, l, rfl⟩

theorem root_mem {s : BinTree ν} {x : ν} (h : s.root = some x) : x ∈ s.toList := by
  cases s with
  | nil => cases h
  | node l y r =>
      cases h
      simp

theorem root_eq_none {s : BinTree ν} (h : s.root = none) : s = nil := by
  cases s with
  | nil => rfl
  | node l x r => cases h

theorem height_le_length (s : BinTree ν) : s.height ≤ s.toList.length := by
  induction s with
  | nil => exact Nat.le_refl 0
  | node l x r ihl ihr =>
      simp only [height, toList_node, List.length_append, List.length_cons]
      omega

theorem height_eq_zero {s : BinTree ν} (h : s.height = 0) : s = nil := by
  cases s with
  | nil => rfl
  | node l x r =>
      simp only [height] at h
      omega

end BinTree

/-! ## Places -/

/-- A node above a place: the side it is on and the other subtree. -/
structure Frame (ν : Type*) where
  side : Side
  node : ν
  sibling : BinTree ν

/-- The tree with `s` at a place. -/
def plug : List (Frame ν) → BinTree ν → BinTree ν
  | [], s => s
  | f :: c, s => plug c (.join f.side s f.node f.sibling)

/-- The nodes to the left of a place. -/
def before : List (Frame ν) → List ν
  | [] => []
  | ⟨.left, _, _⟩ :: c => before c
  | ⟨.right, x, b⟩ :: c => before c ++ b.toList ++ [x]

/-- The nodes to the right of a place. -/
def after : List (Frame ν) → List ν
  | [] => []
  | ⟨.left, x, b⟩ :: c => x :: b.toList ++ after c
  | ⟨.right, _, _⟩ :: c => after c

/-- The nodes around a place. -/
def around : List (Frame ν) → List ν
  | [] => []
  | f :: c => f.node :: (f.sibling.toList ++ around c)

/-- The node above a place. -/
def above : List (Frame ν) → Option ν
  | [] => none
  | f :: _ => some f.node

/-- A subtree of height `n` at the place leaves the nodes above balanced. -/
def Fits : List (Frame ν) → Nat → Prop
  | [], _ => True
  | f :: c, n =>
      n ≤ f.sibling.height + 1 ∧ f.sibling.height ≤ n + 1 ∧ f.sibling.Balanced ∧
        Fits c (1 + max n f.sibling.height)

theorem plug_append (c c' : List (Frame ν)) (s : BinTree ν) :
    plug (c ++ c') s = plug c' (plug c s) := by
  induction c generalizing s with
  | nil => rfl
  | cons f c ih => exact ih _

theorem toList_plug (c : List (Frame ν)) (s : BinTree ν) :
    (plug c s).toList = before c ++ s.toList ++ after c := by
  induction c generalizing s with
  | nil => simp [plug, before, after]
  | cons f c ih =>
      obtain ⟨d, x, b⟩ := f
      rw [plug, ih]
      cases d <;> simp [BinTree.join, before, after]

theorem before_append (c c' : List (Frame ν)) : before (c ++ c') = before c' ++ before c := by
  induction c with
  | nil => simp [before]
  | cons f c ih =>
      obtain ⟨d, x, b⟩ := f
      cases d
      · exact ih
      · simp [before, ih]

theorem after_append (c c' : List (Frame ν)) : after (c ++ c') = after c ++ after c' := by
  induction c with
  | nil => rfl
  | cons f c ih =>
      obtain ⟨d, x, b⟩ := f
      cases d
      · simp [after, ih]
      · exact ih

theorem toList_plug_congr (c : List (Frame ν)) {s s' : BinTree ν} (h : s.toList = s'.toList) :
    (plug c s).toList = (plug c s').toList := by
  rw [toList_plug, toList_plug, h]

theorem balanced_plug {c : List (Frame ν)} {s : BinTree ν} :
    (plug c s).Balanced ↔ s.Balanced ∧ Fits c s.height := by
  induction c generalizing s with
  | nil => simp [plug, Fits]
  | cons f c ih =>
      rw [plug, ih, BinTree.balanced_join, BinTree.height_join, Fits]
      tauto

/-- The nodes of a tree are those of the subtree at a place and those around it. -/
theorem perm_plug (c : List (Frame ν)) (s : BinTree ν) :
    (plug c s).toList.Perm (s.toList ++ around c) := by
  induction c generalizing s with
  | nil => simp [plug, around]
  | cons f c ih =>
      obtain ⟨d, x, b⟩ := f
      refine (ih _).trans ?_
      cases d
      · simp [BinTree.join, around]
      · simp only [BinTree.join, BinTree.toList_node, around, List.append_assoc, List.cons_append]
        have hmid : (b.toList ++ x :: (s.toList ++ around c)).Perm
            (x :: (b.toList ++ (s.toList ++ around c))) := List.perm_middle
        have hswap : (b.toList ++ (s.toList ++ around c)).Perm
            (s.toList ++ (b.toList ++ around c)) := by
          rw [← List.append_assoc, ← List.append_assoc]
          exact List.perm_append_comm.append_right _
        exact (hmid.trans (hswap.cons x)).trans List.perm_middle.symm

theorem nodup_plug {c : List (Frame ν)} {s : BinTree ν} :
    (plug c s).toList.Nodup ↔ (s.toList ++ around c).Nodup :=
  (perm_plug c s).nodup_iff

theorem mem_plug {c : List (Frame ν)} {s : BinTree ν} {x : ν} :
    x ∈ (plug c s).toList ↔ x ∈ s.toList ∨ x ∈ around c := by
  rw [(perm_plug c s).mem_iff, List.mem_append]

theorem above_mem {c : List (Frame ν)} {x : ν} (h : above c = some x) : x ∈ around c := by
  cases c with
  | nil => cases h
  | cons f c =>
      cases h
      exact List.mem_cons_self

theorem length_le_around (c : List (Frame ν)) : c.length ≤ (around c).length := by
  induction c with
  | nil => exact Nat.le_refl 0
  | cons f c ih =>
      simp only [around, List.length_cons, List.length_append]
      omega

theorem length_lt_plug (c : List (Frame ν)) (l : BinTree ν) (x : ν) (r : BinTree ν) :
    c.length < (plug c (.node l x r)).toList.length := by
  have hperm := (perm_plug c (.node l x r)).length_eq
  have hle := length_le_around c
  simp only [BinTree.toList_node, List.length_append, List.length_cons] at hperm
  omega

/-- Every node of a tree is at a place. -/
theorem exists_plug {s : BinTree ν} {x : ν} (h : x ∈ s.toList) :
    ∃ c l r, s = plug c (.node l x r) := by
  induction s with
  | nil => cases h
  | node l y r ihl ihr =>
      rcases List.mem_append.mp h with hl | hr
      · obtain ⟨c, a, b, rfl⟩ := ihl hl
        exact ⟨c ++ [⟨.left, y, r⟩], a, b, by rw [plug_append]; rfl⟩
      · rcases List.mem_cons.mp hr with rfl | hr
        · exact ⟨[], l, r, rfl⟩
        · obtain ⟨c, a, b, rfl⟩ := ihr hr
          exact ⟨c ++ [⟨.right, y, l⟩], a, b, by rw [plug_append]; rfl⟩

end Trees
