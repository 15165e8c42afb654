import Libubox.Lib.Trees
import Mathlib.Logic.Function.Basic

/-!
# Trees in a heap

Binary trees whose nodes are linked both ways and record the difference of the
heights below them.  `Sub g p s` says that the tree `s` is in the heap under the
parent `p`, and `Up g c ns o` that the frames `c` are there around a place that
holds `o`, where `ns` are the heights that they count for what is below them.
Both fix every field of every node, so `rep_plug` cuts and joins a heap at any
place.

`Sub.congr` and `Up.congr` are the frame rules, `Sub.adopt` changes the parent of
a subtree and `Up.relink` what a place holds.
-/

namespace Trees

variable {ν : Type*}

/-- The fields of a node. -/
structure Knot (ν : Type*) where
  parent : Option ν
  left : Option ν
  right : Option ν
  balance : Int

namespace Knot

def child (k : Knot ν) : Side → Option ν
  | .left => k.left
  | .right => k.right

def setChild (k : Knot ν) (d : Side) (o : Option ν) : Knot ν :=
  match d with
  | .left => { k with left := o }
  | .right => { k with right := o }

@[simp] theorem parent_setChild (k : Knot ν) (d : Side) (o : Option ν) :
    (k.setChild d o).parent = k.parent := by
  cases d <;> rfl

@[simp] theorem balance_setChild (k : Knot ν) (d : Side) (o : Option ν) :
    (k.setChild d o).balance = k.balance := by
  cases d <;> rfl

@[simp] theorem child_setChild (k : Knot ν) (d : Side) (o : Option ν) :
    (k.setChild d o).child d = o := by
  cases d <;> rfl

@[simp] theorem child_flip_setChild (k : Knot ν) (d : Side) (o : Option ν) :
    (k.setChild d o).child d.flip = k.child d.flip := by
  cases d <;> rfl

@[simp] theorem child_setChild_flip (k : Knot ν) (d : Side) (o : Option ν) :
    (k.setChild d.flip o).child d = k.child d := by
  cases d <;> rfl

theorem ext_child {k k' : Knot ν} (d : Side) (hparent : k.parent = k'.parent)
    (hchild : k.child d = k'.child d) (hflip : k.child d.flip = k'.child d.flip)
    (hbalance : k.balance = k'.balance) : k = k' := by
  obtain ⟨p, l, r, b⟩ := k
  obtain ⟨p', l', r', b'⟩ := k'
  cases d
  · cases hparent
    cases hchild
    cases hflip
    cases hbalance
    rfl
  · cases hparent
    cases hchild
    cases hflip
    cases hbalance
    rfl

end Knot

/-- What a side adds to a balance when it grows. -/
def Side.sign : Side → Int
  | left => -1
  | right => 1

@[simp] theorem Side.sign_flip (d : Side) : d.flip.sign = -d.sign := by
  cases d <;> rfl

theorem Side.sign_cases (d : Side) : d.sign = 1 ∨ d.sign = -1 := by
  cases d
  · exact .inr rfl
  · exact .inl rfl

/-- The nodes and the root pointer. -/
structure Skeleton (ν : Type*) where
  root : Option ν
  knot : ν → Knot ν

/-- The fields of a node with `o`, of height `n`, on the side `d` and the tree `b`
on the other. -/
def knotAt (p : Option ν) (d : Side) (o : Option ν) (n : Nat) (b : BinTree ν) : Knot ν :=
  match d with
  | .left => ⟨p, o, b.root, b.height - n⟩
  | .right => ⟨p, b.root, o, n - b.height⟩

section KnotAt

variable (p : Option ν) (d : Side) (o : Option ν) (n : Nat) (b : BinTree ν)

@[simp] theorem parent_knotAt : (knotAt p d o n b).parent = p := by cases d <;> rfl

@[simp] theorem child_knotAt : (knotAt p d o n b).child d = o := by cases d <;> rfl

@[simp] theorem child_flip_knotAt : (knotAt p d o n b).child d.flip = b.root := by cases d <;> rfl

@[simp] theorem balance_knotAt :
    (knotAt p d o n b).balance = d.sign * ((n : Int) - b.height) := by
  cases d <;> simp only [knotAt, Side.sign] <;> omega

/-- A balance for another height. -/
theorem knotAt_balance (m : Nat) : { knotAt p d o n b with
    balance := (knotAt p d o n b).balance + d.sign * ((m : Int) - n) } = knotAt p d o m b := by
  apply Knot.ext_child d
  · cases d <;> rfl
  · cases d <;> rfl
  · cases d <;> rfl
  · rw [balance_knotAt, balance_knotAt]
    cases d <;> simp only [Side.sign] <;> omega

end KnotAt

/-- The tree `s` is in the heap, its root under `p`. -/
def Sub (g : Skeleton ν) : Option ν → BinTree ν → Prop
  | _, .nil => True
  | p, .node l x r =>
      g.knot x = ⟨p, l.root, r.root, r.height - l.height⟩ ∧ Sub g (some x) l ∧ Sub g (some x) r

/-- The heights below the frames around a place of height `n`. -/
def heights : List (Frame ν) → Nat → List Nat
  | [], _ => []
  | f :: c, n => n :: heights c (1 + max n f.sibling.height)

/-- The frames `c` are in the heap around a place that holds `o`, with balances for
the heights `ns` below them. -/
def Up (g : Skeleton ν) : List (Frame ν) → List Nat → Option ν → Prop
  | [], _, o => g.root = o
  | f :: c, ns, o =>
      g.knot f.node = knotAt (above c) f.side o (ns.headD 0) f.sibling ∧
        Sub g (some f.node) f.sibling ∧ Up g c ns.tail (some f.node)

/-- The heap holds the tree `s`. -/
def Rep (g : Skeleton ν) (s : BinTree ν) : Prop := g.root = s.root ∧ Sub g none s

variable {g g' : Skeleton ν} {p o : Option ν} {s a b l r : BinTree ν} {c : List (Frame ν)} {d : Side}
  {x y z : ν} {ns : List Nat}

theorem sub_join : Sub g p (.join d a x b) ↔
    g.knot x = knotAt p d a.root a.height b ∧ Sub g (some x) a ∧ Sub g (some x) b := by
  cases d
  · rfl
  · simp only [BinTree.join, Sub, knotAt]
    tauto

/-- A heap is cut and joined at any place. -/
theorem rep_plug : Rep g (plug c s) ↔ Up g c (heights c s.height) s.root ∧ Sub g (above c) s := by
  induction c generalizing s with
  | nil => rfl
  | cons f c ih =>
      rw [plug, ih, sub_join, BinTree.height_join, BinTree.root_join, heights, Up, above, List.headD_cons,
        List.tail_cons]
      tauto

/-! ## Frame rules -/

theorem Sub.congr (h : Sub g p s) (hsame : ∀ z ∈ s.toList, g'.knot z = g.knot z) :
    Sub g' p s := by
  induction s generalizing p with
  | nil => trivial
  | node l x r ihl ihr =>
      refine ⟨(hsame x (by simp)).trans h.1, ihl h.2.1 ?_, ihr h.2.2 ?_⟩
      · intro z hz
        exact hsame z (List.mem_append_left _ hz)
      · intro z hz
        exact hsame z (List.mem_append_right _ (List.mem_cons_of_mem x hz))

theorem Up.congr (h : Up g c ns o) (hroot : g'.root = g.root)
    (hsame : ∀ z ∈ around c, g'.knot z = g.knot z) : Up g' c ns o := by
  induction c generalizing ns o with
  | nil => exact hroot.trans h
  | cons f c ih =>
      refine ⟨(hsame f.node List.mem_cons_self).trans h.1, h.2.1.congr ?_, ih h.2.2 ?_⟩
      · intro z hz
        exact hsame z (List.mem_cons_of_mem _ (List.mem_append_left _ hz))
      · intro z hz
        exact hsame z (List.mem_cons_of_mem _ (List.mem_append_right _ hz))

/-! ## Stores -/

variable [DecidableEq ν]

namespace Skeleton

/-- A store into the fields of a node. -/
def modify (g : Skeleton ν) (x : ν) (f : Knot ν → Knot ν) : Skeleton ν :=
  { g with knot := Function.update g.knot x (f (g.knot x)) }

@[simp] theorem root_modify (g : Skeleton ν) (x : ν) (f : Knot ν → Knot ν) :
    (g.modify x f).root = g.root := rfl

@[simp] theorem knot_modify_self (g : Skeleton ν) (x : ν) (f : Knot ν → Knot ν) :
    (g.modify x f).knot x = f (g.knot x) := Function.update_self ..

theorem knot_modify_of_ne (g : Skeleton ν) {x z : ν} (f : Knot ν → Knot ν) (h : z ≠ x) :
    (g.modify x f).knot z = g.knot z := Function.update_of_ne h ..

/-- A node that may be null gets a new parent. -/
def adopt (g : Skeleton ν) (child parent : Option ν) : Skeleton ν :=
  match child with
  | none => g
  | some z => g.modify z fun k => { k with parent := parent }

@[simp] theorem root_adopt (g : Skeleton ν) (child parent : Option ν) :
    (g.adopt child parent).root = g.root := by
  cases child <;> rfl

theorem knot_adopt_of_ne (g : Skeleton ν) {child : Option ν} (parent : Option ν) {z : ν}
    (h : child ≠ some z) : (g.adopt child parent).knot z = g.knot z := by
  cases child with
  | none => rfl
  | some y =>
      have hne : z ≠ y := by
        intro heq
        exact h (by rw [heq])
      exact knot_modify_of_ne g (fun k => { k with parent := parent }) hne

/-- The pointer to `x`, in its parent or the root pointer, leads to `o` now. -/
def relink (g : Skeleton ν) (parent : Option ν) (x : ν) (o : Option ν) : Skeleton ν :=
  match parent with
  | none => { g with root := o }
  | some p =>
      if (g.knot p).left = some x then g.modify p (·.setChild .left o)
      else g.modify p (·.setChild .right o)

theorem knot_relink_of_ne (g : Skeleton ν) {parent : Option ν} (x : ν) (o : Option ν) {z : ν}
    (h : parent ≠ some z) : (g.relink parent x o).knot z = g.knot z := by
  cases parent with
  | none => rfl
  | some p =>
      have hne : z ≠ p := by
        intro heq
        exact h (by rw [heq])
      unfold relink
      dsimp only
      split
      · exact knot_modify_of_ne g _ hne
      · exact knot_modify_of_ne g _ hne

theorem relink_congr {g g' : Skeleton ν} {parent : Option ν} (x : ν) (o : Option ν)
    (hroot : g'.root = g.root) (hsame : ∀ p, parent = some p → g'.knot p = g.knot p) :
    (g'.relink parent x o).root = (g.relink parent x o).root ∧
      ∀ z, g'.knot z = g.knot z → (g'.relink parent x o).knot z = (g.relink parent x o).knot z := by
  cases parent with
  | none => exact ⟨rfl, fun z hz => hz⟩
  | some p =>
      have hp := hsame p rfl
      simp only [relink, hp]
      split
      · refine ⟨hroot, fun z hz => ?_⟩
        simp only [modify, Function.update_apply, hp, hz]
      · refine ⟨hroot, fun z hz => ?_⟩
        simp only [modify, Function.update_apply, hp, hz]

end Skeleton

open Skeleton

/-- A subtree gets a new parent. -/
theorem Sub.adopt (h : Sub g p s) (hnodup : s.toList.Nodup) (p' : Option ν) :
    Sub (g.adopt s.root p') p' s := by
  cases s with
  | nil => trivial
  | node l x r =>
      obtain ⟨-, hr, hdisj⟩ := List.nodup_append.mp hnodup
      refine ⟨?_, h.2.1.congr ?_, h.2.2.congr ?_⟩
      · change (g.modify x fun k => { k with parent := p' }).knot x = _
        rw [knot_modify_self, h.1]
      · intro z hz
        apply knot_adopt_of_ne
        intro heq
        cases heq
        exact hdisj x hz x List.mem_cons_self rfl
      · intro z hz
        apply knot_adopt_of_ne
        intro heq
        cases heq
        exact (List.nodup_cons.mp hr).1 hz

/-- A subtree that keeps its root and what is below it. -/
theorem Sub.adopt_of_notMem (h : Sub g p s) {child : Option ν} (p' : Option ν)
    (hchild : ∀ z, child = some z → z ∉ s.toList) : Sub (g.adopt child p') p s := by
  apply h.congr
  intro z hz
  exact knot_adopt_of_ne g p' fun heq => hchild z heq hz

/-- A place holds something else. -/
theorem Up.relink (h : Up g c ns (some x)) (hnodup : (x :: around c).Nodup) (o : Option ν) :
    Up (g.relink (above c) x o) c ns o := by
  cases c with
  | nil => rfl
  | cons f c =>
      obtain ⟨hx, hnodup⟩ := List.nodup_cons.mp hnodup
      obtain ⟨hf, -⟩ := List.nodup_cons.mp hnodup
      obtain ⟨d, y, b⟩ := f
      obtain ⟨hknot, hsub, hup⟩ := h
      have hset : g.relink (above (⟨d, y, b⟩ :: c)) x o = g.modify y (·.setChild d o) := by
        cases d
        · have hleft : (g.knot y).left = some x := by
            rw [hknot]
            rfl
          exact if_pos hleft
        · have hleft : (g.knot y).left ≠ some x := by
            rw [hknot]
            intro heq
            exact hx (List.mem_cons_of_mem _ (List.mem_append_left _ (BinTree.root_mem heq)))
          exact if_neg hleft
      rw [hset]
      refine ⟨?_, hsub.congr ?_, hup.congr rfl ?_⟩
      · rw [knot_modify_self, hknot]
        cases d <;> rfl
      · intro z hz
        apply knot_modify_of_ne
        intro heq
        exact hf (List.mem_append_left _ (heq ▸ hz))
      · intro z hz
        apply knot_modify_of_ne
        intro heq
        exact hf (List.mem_append_right _ (heq ▸ hz))

/-- The node `y` takes the place of `x`, with everything that is linked to it. -/
def Skeleton.takePlace (g : Skeleton ν) (x y : ν) : Skeleton ν :=
  let k := g.knot x
  (((g.modify y fun _ => k).adopt k.left (some y)).adopt k.right (some y)).relink k.parent x (some y)

theorem Rep.takePlace (h : Rep g (plug c (.node l x r))) (hnodup : (plug c (.node l x r)).toList.Nodup)
    (hy : y ∉ (plug c (.node l x r)).toList) : Rep (g.takePlace x y) (plug c (.node l y r)) := by
  obtain ⟨hup, hknot, hl, hr⟩ := rep_plug.mp h
  rw [nodup_plug] at hnodup
  rw [mem_plug, not_or] at hy
  obtain ⟨hnodup, haround, hdisj⟩ := List.nodup_append.mp hnodup
  obtain ⟨hnl, hxr, hlr⟩ := List.nodup_append.mp hnodup
  obtain ⟨hx, hnr⟩ := List.nodup_cons.mp hxr
  simp only [BinTree.toList_node, List.mem_append, List.mem_cons, not_or] at hy hdisj
  have hlmem : ∀ z, l.root = some z → z ∈ l.toList := fun z hz => BinTree.root_mem hz
  have hrmem : ∀ z, r.root = some z → z ∈ r.toList := fun z hz => BinTree.root_mem hz
  have haway : ∀ z, above c = some z → z ∈ around c := fun z hz => above_mem hz
  have htake : g.takePlace x y = (((g.modify y fun _ => g.knot x).adopt l.root (some y)).adopt r.root
      (some y)).relink (above c) x (some y) := by
    simp only [Skeleton.takePlace, hknot]
  rw [htake]
  apply rep_plug.mpr
  constructor
  · refine (hup.congr ?_ ?_).relink ?_ (some y)
    · simp only [root_adopt, root_modify]
    · intro z hz
      rw [knot_adopt_of_ne, knot_adopt_of_ne, knot_modify_of_ne]
      · rintro rfl
        exact hy.2 hz
      · intro heq
        exact hdisj z (.inl (hlmem z heq)) z hz rfl
      · intro heq
        exact hdisj z (.inr (.inr (hrmem z heq))) z hz rfl
    · refine List.nodup_cons.mpr ⟨?_, haround⟩
      intro hz
      exact hdisj x (.inr (.inl rfl)) x hz rfl
  · have hrelink : ∀ z, z ∉ around c → ∀ g' : Skeleton ν,
        (g'.relink (above c) x (some y)).knot z = g'.knot z := fun z hz g' =>
      knot_relink_of_ne g' x (some y) fun heq => hz (haway z heq)
    refine ⟨?_, ?_, ?_⟩
    · rw [hrelink y hy.2, knot_adopt_of_ne, knot_adopt_of_ne, knot_modify_self, hknot]
      · exact fun heq => hy.1.1 (hlmem y heq)
      · exact fun heq => hy.1.2.2 (hrmem y heq)
    · have hl₁ : Sub (g.modify y fun _ => g.knot x) (some x) l := by
        apply hl.congr
        intro z hz
        apply knot_modify_of_ne
        rintro rfl
        exact hy.1.1 hz
      have hapart : ∀ z, r.root = some z → z ∉ l.toList := by
        intro z hz hmem
        exact hlr z hmem z (List.mem_cons_of_mem x (hrmem z hz)) rfl
      apply ((hl₁.adopt hnl (some y)).adopt_of_notMem (some y) hapart).congr
      intro z hz
      exact hrelink z (fun hmem => hdisj z (.inl hz) z hmem rfl) _
    · have hr₁ : Sub (g.modify y fun _ => g.knot x) (some x) r := by
        apply hr.congr
        intro z hz
        apply knot_modify_of_ne
        rintro rfl
        exact hy.1.2.2 hz
      have hapart : ∀ z, l.root = some z → z ∉ r.toList := by
        intro z hz hmem
        exact hlr z (hlmem z hz) z (List.mem_cons_of_mem x hmem) rfl
      apply ((hr₁.adopt_of_notMem (some y) hapart).adopt hnr (some y)).congr
      intro z hz
      exact hrelink z (fun hmem => hdisj z (.inr (.inr hz)) z hmem rfl) _

end Trees
