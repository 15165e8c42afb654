import Libubox.Avl.Rebalance
import Libubox.Lib.Circle
import Mathlib.Algebra.Group.Nat.Defs

/-!
# AVL trees

`avl.c` over its pointers.  The leaders are the nodes of the tree; all nodes are
in the list, and `Sound` says how the two belong together: the list is the
sequence of the groups, a leader and the duplicates behind it, and `born` are the
nodes in the order in which they were inserted.

The tree head and the nodes have their places in the list by address, so a
pointer in the list may be the head's.
-/

namespace Libubox.Avl

open Trees Circles

/-- `struct avl_tree` with the fields of its nodes.  `comp` is a parameter of the
functions that call it. -/
structure AvlTree (ν κ : Type*) extends Skeleton ν where
  listHead : ν
  list : Links ν
  count : Nat
  allowDups : Bool
  key : ν → κ
  leader : ν → Bool

variable {ν κ : Type*}

/-- `avl_init` of a head. -/
def avlInit [DecidableEq ν] (listHead : ν) (allowDups : Bool) (knot : ν → Knot ν) (key : ν → κ)
    (leader : ν → Bool) (list : Links ν) : AvlTree ν κ where
  root := none
  knot := knot
  listHead := listHead
  list := { next := Function.update list.next listHead (some listHead)
            prev := Function.update list.prev listHead (some listHead) }
  count := 0
  allowDups := allowDups
  key := key
  leader := leader

namespace AvlTree

/-! ## Searching -/

section Find

variable (comp : κ → κ → Int)

/-- `avl_find_rec`: where the search stops, and the comparison there. -/
def avlFindRec (t : AvlTree ν κ) (key : κ) : Nat → ν → Option (ν × Int)
  | 0, _ => none
  | fuel + 1, node =>
      let diff := comp key (t.key node)
      if diff < 0 then
        match (t.knot node).left with
        | some left => avlFindRec t key fuel left
        | none => some (node, diff)
      else if 0 < diff then
        match (t.knot node).right with
        | some right => avlFindRec t key fuel right
        | none => some (node, diff)
      else some (node, diff)

/-- `avl_find`. -/
def avlFind (fuel : Nat) (t : AvlTree ν κ) (key : κ) : Option (Option ν) :=
  match t.root with
  | none => some none
  | some root =>
      (t.avlFindRec comp key fuel root).map fun (node, diff) =>
        if diff = 0 then some node else none

end Find

variable [DecidableEq ν]

/-! ## Inserting -/

/-- `list_is_last` in the list of the tree. -/
def isLast (t : AvlTree ν κ) (node : ν) : Bool := t.list.next node = some t.listHead

/-- The loop of `avl_insert` over the duplicates of a leader, from `last` on. -/
def groupEnd (t : AvlTree ν κ) : Nat → ν → Option ν
  | 0, _ => none
  | fuel + 1, last =>
      if t.isLast last then some last
      else
        (t.list.next last).bind fun next =>
          if t.leader next then some last else groupEnd t fuel next

/-- `avl_insert_before`. -/
def avlInsertBefore (t : AvlTree ν κ) (posNode node : ν) : Option (AvlTree ν κ) :=
  (t.list.prev posNode).map fun prev =>
    { t with list := t.list.add node prev posNode, count := (t.count + 1) % 2 ^ 32 }

/-- `avl_insert_after`. -/
def avlInsertAfter (t : AvlTree ν κ) (posNode node : ν) : Option (AvlTree ν κ) :=
  (t.list.next posNode).map fun next =>
    { t with list := t.list.add node posNode next, count := (t.count + 1) % 2 ^ 32 }

/-- `addLeaf` on a tree. -/
def attach (t : AvlTree ν κ) (d : Side) (node new : ν) (balance : Int) : AvlTree ν κ :=
  { t with toSkeleton := addLeaf t.toSkeleton d node new balance }

/-- `post_insert` on a tree. -/
def rebalance (fuel : Nat) (t : AvlTree ν κ) (node : ν) : Option (AvlTree ν κ) :=
  (postInsert fuel t.toSkeleton node).map fun g => { t with toSkeleton := g }

/-- A node before its insertion. -/
def fresh (t : AvlTree ν κ) (new : ν) : AvlTree ν κ :=
  { t with
    toSkeleton := t.modify new fun _ => ⟨none, none, none, 0⟩
    leader := Function.update t.leader new true }

/-- `avl_insert`; `true` stands for `0`. -/
def avlInsert (comp : κ → κ → Int) (fuel : Nat) (t : AvlTree ν κ) (new : ν) :
    Option (Bool × AvlTree ν κ) :=
  let t := t.fresh new
  match t.root with
  | none =>
      (t.list.next t.listHead).map fun next =>
        (true, { t with list := t.list.add new t.listHead next, root := some new, count := 1 })
  | some root =>
      (t.avlFindRec comp (t.key new) fuel root).bind fun (node, _) =>
        (t.groupEnd fuel node).bind fun last =>
          let diff := comp (t.key new) (t.key node)
          if diff = 0 then
            if t.allowDups then
              ({ t with leader := Function.update t.leader new false }.avlInsertAfter last new).map
                fun t => (true, t)
            else some (false, t)
          else if (t.knot node).balance = 1 then
            (t.avlInsertBefore node new).map fun t => (true, t.attach .left node new 0)
          else if (t.knot node).balance = -1 then
            (t.avlInsertAfter last new).map fun t => (true, t.attach .right node new 0)
          else if diff < 0 then
            (t.avlInsertBefore node new).bind fun t =>
              ((t.attach .left node new (-1)).rebalance fuel node).map fun t => (true, t)
          else
            (t.avlInsertAfter last new).bind fun t =>
              ((t.attach .right node new 1).rebalance fuel node).map fun t => (true, t)

/-! ## Deleting -/

/-- `avl_remove`. -/
def avlRemove (t : AvlTree ν κ) (node : ν) : Option (AvlTree ν κ) :=
  (t.list.del node).map fun list =>
    { t with list := list, count := (t.count + (2 ^ 32 - 1)) % 2 ^ 32 }

/-- `avl_delete_worker` on a tree. -/
def cut (fuel : Nat) (t : AvlTree ν κ) (node : ν) : Option (AvlTree ν κ) :=
  (avlDeleteWorker fuel t.toSkeleton node).map fun g => { t with toSkeleton := g }

/-- The duplicate behind a leader becomes the leader. -/
def promote (t : AvlTree ν κ) (node next : ν) : AvlTree ν κ :=
  { t with
    toSkeleton := t.takePlace node next
    leader := Function.update t.leader next true }

/-- `avl_delete`. -/
def avlDelete (fuel : Nat) (t : AvlTree ν κ) (node : ν) : Option (AvlTree ν κ) :=
  (if t.leader node then
    if t.allowDups && !t.isLast node then
      (t.list.next node).bind fun next =>
        if t.leader next then t.cut fuel node else some (t.promote node next)
    else t.cut fuel node
  else some t).bind fun t => t.avlRemove node

end AvlTree

/-! ## The invariant -/

/-- What the comparator has to be. -/
structure TotalPreorder (comp : κ → κ → Int) : Prop where
  swap : ∀ a b, comp a b < 0 ↔ 0 < comp b a
  trans : ∀ a b c, comp a b ≤ 0 → comp b c ≤ 0 → comp a c ≤ 0

/-- The nodes of a sequence of groups. -/
def members (gs : List (ν × List ν)) : List ν := gs.flatMap fun p => p.1 :: p.2

/-- The tree of the groups `gs` of the nodes `born`. -/
structure Sound (comp : κ → κ → Int) (t : AvlTree ν κ) (gs : List (ν × List ν))
    (born : List ν) : Prop where
  tree : Settled t.toSkeleton (gs.map Prod.fst)
  ordered : gs.Pairwise fun p q => comp (t.key p.1) (t.key q.1) < 0
  group : ∀ p ∈ gs, p.1 :: p.2 = born.filter fun y => comp (t.key y) (t.key p.1) = 0
  perm : (members gs).Perm born
  leader : ∀ p ∈ gs, t.leader p.1 = true
  follower : ∀ p ∈ gs, ∀ y ∈ p.2, t.leader y = false
  circle : Circle t.list t.listHead (members gs)
  nodup : (t.listHead :: members gs).Nodup
  count : t.count = (members gs).length % 2 ^ 32
  unique : t.allowDups = false → ∀ p ∈ gs, p.2 = []

end Libubox.Avl
