import Libubox.Lib.TreeHeap
import Mathlib.Data.List.Basic

/-!
# Rebalancing

The part of `avl.c` that works on the tree pointers and balances alone: the
rotations, `post_insert` and `avl_post_delete`, and `avl_delete_worker`.

The source has most of it twice, for the left and for the right.  Here a side is
a parameter; `avl_rotate_right` is the rotation that lifts the left child.  A
null pointer that is followed makes a function `none`, and so does a recursion
deeper than its fuel.
-/

namespace Libubox.Avl

open Trees Skeleton

variable {ν : Type*} [DecidableEq ν]

/-! ## The source -/

/-- The balances of a node and of its child on the side `d` after the child was
lifted. -/
def lifted (d : Side) (node child : Int) : Int × Int :=
  match d with
  | .left =>
      let node := node + (1 - min child 0)
      (node, child + (1 + max node 0))
  | .right =>
      let node := node - (1 + max child 0)
      (node, child - (1 - min node 0))

/-- `avl_rotate_right` for the left side, `avl_rotate_left` for the right one. -/
def avlRotate (d : Side) (g : Skeleton ν) (node : ν) : Option (Skeleton ν) :=
  ((g.knot node).child d).map fun child =>
    let parent := (g.knot node).parent
    let g := g.modify child fun k => { k with parent := parent }
    let g := g.modify node fun k => { k with parent := some child }
    let g := g.relink parent node (some child)
    let inner := (g.knot child).child d.flip
    let g := g.modify node (·.setChild d inner)
    let g := g.modify child (·.setChild d.flip (some node))
    let g := g.adopt inner (some node)
    let balances := lifted d (g.knot node).balance (g.knot child).balance
    let g := g.modify node fun k => { k with balance := balances.1 }
    g.modify child fun k => { k with balance := balances.2 }

def avlRotateRight : Skeleton ν → ν → Option (Skeleton ν) := avlRotate .left

def avlRotateLeft : Skeleton ν → ν → Option (Skeleton ν) := avlRotate .right

/-- The side of `parent` that `node` is on. -/
def sideOf (g : Skeleton ν) (parent node : ν) : Side :=
  if (g.knot parent).left = some node then .left else .right

def addBalance (g : Skeleton ν) (x : ν) (k : Int) : Skeleton ν :=
  g.modify x fun knot => { knot with balance := knot.balance + k }

/-- The node `new` becomes the child of `node` on a side, with a new balance above. -/
def addLeaf (g : Skeleton ν) (d : Side) (node new : ν) (balance : Int) : Skeleton ν :=
  let g := g.modify node fun k => { k with balance := balance }
  let g := g.modify new fun k => { k with parent := some node }
  g.modify node (·.setChild d (some new))

/-- `post_insert`: the tree at `node` has grown by a level. -/
def postInsert : Nat → Skeleton ν → ν → Option (Skeleton ν)
  | 0, _, _ => none
  | fuel + 1, g, node =>
      match (g.knot node).parent with
      | none => some g
      | some parent =>
          let d := sideOf g parent node
          let g := addBalance g parent d.sign
          if (g.knot parent).balance = 0 then some g
          else if (g.knot parent).balance = d.sign then postInsert fuel g parent
          else if (g.knot node).balance = d.sign then avlRotate d g parent
          else
            (avlRotate d.flip g node).bind fun g =>
              (g.knot node).parent.bind fun up =>
                (g.knot up).parent.bind fun parent => avlRotate d g parent

/-- The tree on the side `d` of `parent` has lost a level: the two halves of
`avl_post_delete`, and what `avl_delete_worker` does above a leaf. -/
def shrink (again : Skeleton ν → ν → Option (Skeleton ν)) (d : Side) (g : Skeleton ν)
    (parent : ν) : Option (Skeleton ν) :=
  let g := addBalance g parent (-d.sign)
  if (g.knot parent).balance = 0 then again g parent
  else if (g.knot parent).balance = -d.sign then some g
  else
    ((g.knot parent).child d.flip).bind fun sibling =>
      if (g.knot sibling).balance = 0 then avlRotate d.flip g parent
      else if (g.knot sibling).balance = -d.sign then
        (avlRotate d.flip g parent).bind fun g => (g.knot parent).parent.bind (again g)
      else
        (avlRotate d g sibling).bind fun g =>
          (avlRotate d.flip g parent).bind fun g => (g.knot parent).parent.bind (again g)

/-- `avl_post_delete`: the tree at `node` has lost a level. -/
def avlPostDelete : Nat → Skeleton ν → ν → Option (Skeleton ν)
  | 0, _, _ => none
  | fuel + 1, g, node =>
      match (g.knot node).parent with
      | none => some g
      | some parent => shrink (avlPostDelete fuel) (sideOf g parent node) g parent

/-- `avl_local_min`. -/
def avlLocalMin : Nat → Skeleton ν → ν → Option ν
  | 0, _, _ => none
  | fuel + 1, g, node =>
      match (g.knot node).left with
      | none => some node
      | some left => avlLocalMin fuel g left

/-- The only child of `node` takes its place. -/
def promoteChild (fuel : Nat) (g : Skeleton ν) (node child : ν) : Option (Skeleton ν) :=
  let parent := (g.knot node).parent
  let g := g.modify child fun k => { k with parent := parent }
  let g := g.relink parent node (some child)
  match parent with
  | none => some g
  | some _ => avlPostDelete fuel g child

/-- `avl_delete_worker`. -/
def avlDeleteWorker : Nat → Skeleton ν → ν → Option (Skeleton ν)
  | 0, _, _ => none
  | fuel + 1, g, node =>
      match (g.knot node).left, (g.knot node).right with
      | none, none =>
          match (g.knot node).parent with
          | none => some { g with root := none }
          | some parent =>
              if (g.knot parent).left = some node then
                shrink (avlPostDelete fuel) .left (g.modify parent (·.setChild .left none)) parent
              else if (g.knot parent).right = some node then
                shrink (avlPostDelete fuel) .right (g.modify parent (·.setChild .right none)) parent
              else none
      | none, some right => promoteChild fuel g node right
      | some left, none => promoteChild fuel g node left
      | some _, some right =>
          (avlLocalMin fuel g right).bind fun min =>
            (avlDeleteWorker fuel g min).map fun g => g.takePlace node min

/-! ## Rotations -/

variable {g g' : Skeleton ν} {c : List (Frame ν)} {a b e s : BinTree ν} {x y : ν} {d : Side} {n : Nat} {ns : List Nat}

/-- What a rotation does to every node. -/
theorem avlRotate_knot {p o : Option ν} (hparent : (g.knot x).parent = p)
    (hchild : (g.knot x).child d = some y) (hinner : (g.knot y).child d.flip = o)
    (hxy : x ≠ y) (hpx : p ≠ some x) (hpy : p ≠ some y) (hox : o ≠ some x) (hoy : o ≠ some y) :
    ∃ g', avlRotate d g x = some g' ∧ g'.root = (g.relink p x (some y)).root ∧
      g'.knot x = { (g.knot x).setChild d o with
        parent := some y
        balance := (lifted d (g.knot x).balance (g.knot y).balance).1 } ∧
      g'.knot y = { (g.knot y).setChild d.flip (some x) with
        parent := p
        balance := (lifted d (g.knot x).balance (g.knot y).balance).2 } ∧
      (∀ z, z ≠ x → z ≠ y → o ≠ some z → g'.knot z = (g.relink p x (some y)).knot z) ∧
      ∀ z, z ≠ x → z ≠ y → p ≠ some z → g'.knot z = (g.adopt o (some x)).knot z := by
  -- the parent pointers of the two nodes
  obtain ⟨g₁, hg₁⟩ : ∃ g₁, g₁ = (g.modify y fun k => { k with parent := p }).modify x
    fun k => { k with parent := some y } := ⟨_, rfl⟩
  have hx₁ : g₁.knot x = { g.knot x with parent := some y } := by
    rw [hg₁, knot_modify_self, knot_modify_of_ne _ _ hxy]
  have hy₁ : g₁.knot y = { g.knot y with parent := p } := by
    rw [hg₁, knot_modify_of_ne _ _ hxy.symm, knot_modify_self]
  have hz₁ : ∀ z, z ≠ x → z ≠ y → g₁.knot z = g.knot z := by
    intro z hzx hzy
    rw [hg₁, knot_modify_of_ne _ _ hzx, knot_modify_of_ne _ _ hzy]
  -- the pointer to the node
  obtain ⟨hroot, hlink⟩ := @relink_congr _ _ g g₁ p x (some y) (by rw [hg₁]; rfl) (by
    intro q hq
    apply hz₁ q
    · rintro rfl
      exact hpx hq
    · rintro rfl
      exact hpy hq)
  obtain ⟨g₂, hg₂⟩ : ∃ g₂, g₂ = g₁.relink p x (some y) := ⟨_, rfl⟩
  rw [← hg₂] at hroot hlink
  have hx₂ : g₂.knot x = { g.knot x with parent := some y } := by
    rw [hg₂, knot_relink_of_ne _ _ _ hpx, hx₁]
  have hy₂ : g₂.knot y = { g.knot y with parent := p } := by
    rw [hg₂, knot_relink_of_ne _ _ _ hpy, hy₁]
  have hinner₂ : (g₂.knot y).child d.flip = o := by
    rw [hy₂, ← hinner]
    cases d <;> rfl
  -- the children, and the parent of the inner tree
  obtain ⟨g₃, hg₃⟩ : ∃ g₃, g₃ = ((g₂.modify x (·.setChild d o)).modify y
    (·.setChild d.flip (some x))).adopt o (some x) := ⟨_, rfl⟩
  have hx₃ : g₃.knot x = { (g.knot x).setChild d o with parent := some y } := by
    rw [hg₃, knot_adopt_of_ne _ _ hox, knot_modify_of_ne _ _ hxy, knot_modify_self, hx₂]
    cases d <;> rfl
  have hy₃ : g₃.knot y = { (g.knot y).setChild d.flip (some x) with parent := p } := by
    rw [hg₃, knot_adopt_of_ne _ _ hoy, knot_modify_self, knot_modify_of_ne _ _ hxy.symm, hy₂]
    cases d <;> rfl
  have hrotate : avlRotate d g x = some ((g₃.modify x fun k => { k with
      balance := (lifted d (g₃.knot x).balance (g₃.knot y).balance).1 }).modify y fun k => { k with
      balance := (lifted d (g₃.knot x).balance (g₃.knot y).balance).2 }) := by
    rw [avlRotate, hchild, Option.map_some, hparent]
    simp only [← hg₁, ← hg₂, hinner₂, ← hg₃]
  have hbx : (g₃.knot x).balance = (g.knot x).balance := by
    rw [hx₃]
    exact Knot.balance_setChild ..
  have hby : (g₃.knot y).balance = (g.knot y).balance := by
    rw [hy₃]
    exact Knot.balance_setChild ..
  rw [hbx, hby] at hrotate
  refine ⟨_, hrotate, ?_, ?_, ?_, ?_, ?_⟩
  · rw [root_modify, root_modify, hg₃, root_adopt, root_modify, root_modify, hroot]
  · rw [knot_modify_of_ne _ _ hxy, knot_modify_self, hx₃]
  · rw [knot_modify_self, knot_modify_of_ne _ _ hxy.symm, hy₃]
  · intro z hzx hzy hzo
    rw [knot_modify_of_ne _ _ hzy, knot_modify_of_ne _ _ hzx, hg₃, knot_adopt_of_ne _ _ hzo,
      knot_modify_of_ne _ _ hzy, knot_modify_of_ne _ _ hzx, hlink z (hz₁ z hzx hzy)]
  · intro z hzx hzy hzp
    rw [knot_modify_of_ne _ _ hzy, knot_modify_of_ne _ _ hzx, hg₃]
    have hz₂ : ((g₂.modify x (·.setChild d o)).modify y (·.setChild d.flip (some x))).knot z
        = g.knot z := by
      rw [knot_modify_of_ne _ _ hzy, knot_modify_of_ne _ _ hzx, hg₂, knot_relink_of_ne _ _ _ hzp,
        hz₁ z hzx hzy]
    cases o with
    | none => exact hz₂
    | some w =>
        simp only [adopt]
        by_cases hzw : z = w
        · subst hzw
          rw [knot_modify_self, knot_modify_self, hz₂]
        · rw [knot_modify_of_ne _ _ hzw, knot_modify_of_ne _ _ hzw, hz₂]

/-- **A rotation** lifts the child and keeps everything exact. -/
theorem avlRotate_spec (hup : Up g c ns (some x))
    (hsub : Sub g (above c) (.join d (.join d a y e) x b))
    (hnodup : (plug c (.join d (.join d a y e) x b)).toList.Nodup) :
    ∃ g', avlRotate d g x = some g' ∧ Up g' c ns (some y) ∧
      Sub g' (above c) (.join d a y (.join d e x b)) := by
  obtain ⟨hx, hsuby, hb⟩ := sub_join.mp hsub
  obtain ⟨hy, ha, he⟩ := sub_join.mp hsuby
  -- all the nodes are different
  have hperm : (BinTree.join d (.join d a y e) x b).toList.Perm
      (x :: y :: (a.toList ++ (e.toList ++ b.toList))) := by
    have hinner := (BinTree.perm_join d a y e).append_right b.toList
    rw [List.cons_append, List.append_assoc] at hinner
    exact (BinTree.perm_join d _ x b).trans (hinner.cons x)
  have hall := ((hperm.append_right (around c)).nodup_iff).mp (nodup_plug.mp hnodup)
  simp only [List.cons_append, List.nodup_cons, List.append_assoc, List.mem_cons, List.mem_append,
    not_or] at hall
  obtain ⟨⟨hxy, hxa, hxe, hxb, hxc⟩, ⟨hya, hye, hyb, hyc⟩, hall⟩ := hall
  obtain ⟨-, hall, hda⟩ := List.nodup_append.mp hall
  obtain ⟨hne, hall, hde⟩ := List.nodup_append.mp hall
  obtain ⟨-, hnc, hdb⟩ := List.nodup_append.mp hall
  have hroot : ∀ z, e.root = some z → z ∈ e.toList := fun z hz => BinTree.root_mem hz
  have haway : ∀ z, above c = some z → z ∈ around c := fun z hz => above_mem hz
  obtain ⟨g', hrotate, hgroot, hgx, hgy, hout, hin⟩ := @avlRotate_knot _ _ g x y d (above c) e.root
    (by rw [hx, parent_knotAt]) (by rw [hx, child_knotAt, BinTree.root_join])
    (by rw [hy, child_flip_knotAt]) hxy (fun heq => hxc (haway x heq)) (fun heq => hyc (haway y heq))
    (fun heq => hxe (hroot x heq)) (fun heq => hye (hroot y heq))
  have hsame : ∀ z, z ≠ x → z ≠ y → e.root ≠ some z → above c ≠ some z →
      g'.knot z = g.knot z := by
    intro z hzx hzy hze hzc
    rw [hin z hzx hzy hzc, knot_adopt_of_ne _ _ hze]
  refine ⟨g', hrotate, ?_, ?_⟩
  · refine (hup.relink (List.nodup_cons.mpr ⟨hxc, hnc⟩) (some y)).congr hgroot ?_
    intro z hz
    apply hout z
    · rintro rfl
      exact hxc hz
    · rintro rfl
      exact hyc hz
    · intro heq
      exact hde z (hroot z heq) z (List.mem_append_right _ hz) rfl
  · have hbal : ∀ n m k : Nat, lifted d (d.sign * ((1 + max n m : Nat) - (k : Int)))
        (d.sign * ((n : Int) - m))
        = (d.sign * ((m : Int) - k), d.sign * ((n : Int) - (1 + max m k : Nat))) := by
      intro n m k
      cases d <;> simp only [lifted, Side.sign, Prod.mk.injEq] <;> omega
    rw [hx, hy] at hgx hgy
    rw [balance_knotAt, balance_knotAt, BinTree.height_join, hbal] at hgx hgy
    refine sub_join.mpr ⟨?_, ?_, sub_join.mpr ⟨?_, ?_, ?_⟩⟩
    · rw [hgy]
      apply Knot.ext_child d
      · simp
      · cases d <;> rfl
      · cases d <;> rfl
      · simp
    · apply ha.congr
      intro z hz
      apply hsame z
      · rintro rfl
        exact hxa hz
      · rintro rfl
        exact hya hz
      · intro heq
        exact hda z hz z (List.mem_append_left _ (hroot z heq)) rfl
      · intro heq
        exact hda z hz z (List.mem_append_right _ (List.mem_append_right _ (haway z heq))) rfl
    · rw [hgx]
      apply Knot.ext_child d
      · simp
      · cases d <;> rfl
      · cases d <;> rfl
      · simp
    · apply (he.adopt hne (some x)).congr
      intro z hz
      apply hin z
      · rintro rfl
        exact hxe hz
      · rintro rfl
        exact hye hz
      · intro heq
        exact hde z hz z (List.mem_append_right _ (haway z heq)) rfl
    · apply hb.congr
      intro z hz
      apply hsame z
      · rintro rfl
        exact hxb hz
      · rintro rfl
        exact hyb hz
      · intro heq
        exact hde z (hroot z heq) z (List.mem_append_left _ hz) rfl
      · intro heq
        exact hdb z hz z (haway z heq) rfl

/-- **Two rotations** lift the grandchild between a node and its child. -/
theorem avlRotate_twice {e₁ e₂ : BinTree ν} {z : ν} (hup : Up g c ns (some y))
    (hsub : Sub g (above c) (.join d (.join d a x (.join d e₁ z e₂)) y b))
    (hnodup : (plug c (.join d (.join d a x (.join d e₁ z e₂)) y b)).toList.Nodup)
    (hheight : a.height + 1 = (BinTree.join d e₁ z e₂).height) :
    ∃ g₁ g₂, avlRotate d.flip g x = some g₁ ∧ (g₁.knot x).parent = some z ∧
      (g₁.knot z).parent = some y ∧ avlRotate d g₁ y = some g₂ ∧ Up g₂ c ns (some z) ∧
      Sub g₂ (above c) (.join d (.join d a x e₁) z (.join d e₂ y b)) := by
  rw [BinTree.height_join] at hheight
  obtain ⟨hy, hchild, hb⟩ := sub_join.mp hsub
  have hup₀ : Up g (⟨d, y, b⟩ :: c) ((BinTree.join d a x (.join d e₁ z e₂)).height :: ns) (some x) := by
    rw [BinTree.root_join] at hy
    exact ⟨hy, hb, hup⟩
  have hturn : BinTree.join d a x (.join d e₁ z e₂)
      = .join d.flip (.join d.flip e₂ z e₁) x a := by
    rw [BinTree.join_flip, BinTree.join_flip]
  have hnodup₀ : (plug (⟨d, y, b⟩ :: c) (.join d a x (.join d e₁ z e₂))).toList.Nodup := hnodup
  have hchild₀ : Sub g (above (⟨d, y, b⟩ :: c)) (.join d.flip (.join d.flip e₂ z e₁) x a) := by
    rw [← hturn]
    exact hchild
  rw [hturn] at hnodup₀
  obtain ⟨g₁, hrotate₁, hup₁, hsub₁⟩ := avlRotate_spec hup₀ hchild₀ hnodup₀
  obtain ⟨hz, -, hxsub⟩ := sub_join.mp hsub₁
  obtain ⟨hx, -, -⟩ := sub_join.mp hxsub
  obtain ⟨hy₁, hb₁, hup₁⟩ := hup₁
  -- the subtree has kept its height, so the balance above it is still exact
  have hturn₁ : BinTree.join d.flip e₂ z (.join d.flip e₁ x a) = .join d (.join d a x e₁) z e₂ := by
    rw [BinTree.join_flip, BinTree.join_flip]
  rw [hturn₁] at hsub₁
  have hkept : (BinTree.join d a x (.join d e₁ z e₂)).height
      = (BinTree.join d (.join d a x e₁) z e₂).height := by
    simp only [BinTree.height_join]
    omega
  have hwhole : Sub g₁ (above c) (.join d (.join d (.join d a x e₁) z e₂) y b) := by
    refine sub_join.mpr ⟨?_, hsub₁, hb₁⟩
    rw [BinTree.root_join, ← hkept]
    exact hy₁
  have horder : (BinTree.join d (.join d (.join d a x e₁) z e₂) y b).toList
      = (BinTree.join d (.join d a x (.join d e₁ z e₂)) y b).toList := by
    cases d <;> simp [BinTree.join]
  have hnodup₁ : (plug c (.join d (.join d (.join d a x e₁) z e₂) y b)).toList.Nodup := by
    rw [toList_plug_congr c horder]
    exact hnodup
  obtain ⟨g₂, hrotate₂, hup₂, hsub₂⟩ := avlRotate_spec hup₁ hwhole hnodup₁
  refine ⟨g₁, g₂, hrotate₁, ?_, ?_, hrotate₂, hup₂, hsub₂⟩
  · rw [hx, parent_knotAt]
  · rw [hz, parent_knotAt]
    rfl

/-! ## Going up -/

/-- The heap holds a balanced tree with the nodes `xs` in order. -/
def Settled (g : Skeleton ν) (xs : List ν) : Prop :=
  ∃ s, Rep g s ∧ s.Balanced ∧ s.toList = xs

omit [DecidableEq ν] in
theorem settled_plug (hup : Up g c (heights c n) s.root) (hsub : Sub g (above c) s)
    (hheight : s.height = n) (hbal : s.Balanced) (hfits : Fits c n) :
    Settled g (plug c s).toList := by
  subst hheight
  exact ⟨plug c s, rep_plug.mpr ⟨hup, hsub⟩, balanced_plug.mpr ⟨hbal, hfits⟩, rfl⟩

variable {f : Frame ν}

theorem sideOf_eq (hup : Up g (f :: c) ns (some x)) (hx : x ∉ f.sibling.toList) :
    sideOf g f.node x = f.side := by
  obtain ⟨d, y, b⟩ := f
  unfold sideOf
  rw [hup.1]
  cases d
  · exact if_pos rfl
  · apply if_neg
    intro heq
    exact hx (BinTree.root_mem heq)

/-- The balance of the node above is made exact again. -/
theorem sub_addBalance {k : Int} (hup : Up g (f :: c) (n :: ns) s.root)
    (hsub : Sub g (some f.node) s) (hnodup : (plug (f :: c) s).toList.Nodup)
    (hk : k = f.side.sign * ((s.height : Int) - n)) :
    Sub (addBalance g f.node k) (above c) (.join f.side s f.node f.sibling) ∧
      Up (addBalance g f.node k) c ns (some f.node) := by
  obtain ⟨hknot, hsib, hup⟩ := hup
  have hall := (((BinTree.perm_join f.side s f.node f.sibling).append_right (around c)).nodup_iff).mp
    (nodup_plug.mp hnodup)
  simp only [List.cons_append, List.nodup_cons, List.mem_append, not_or] at hall
  obtain ⟨⟨⟨hs, hb⟩, hc⟩, -⟩ := hall
  have hne : ∀ z, z ≠ f.node → (addBalance g f.node k).knot z = g.knot z := fun z hz =>
    knot_modify_of_ne g _ hz
  refine ⟨sub_join.mpr ⟨?_, ?_, ?_⟩, ?_⟩
  · rw [addBalance, knot_modify_self, hknot, hk]
    exact knotAt_balance ..
  · apply hsub.congr
    intro z hz
    apply hne
    rintro rfl
    exact hs hz
  · apply hsib.congr
    intro z hz
    apply hne
    rintro rfl
    exact hb hz
  · refine hup.congr rfl ?_
    intro z hz
    apply hne
    rintro rfl
    exact hc hz

/-- **`post_insert`** restores the balance above a tree that has grown by a level. -/
theorem postInsert_spec {fuel : Nat} (hup : Up g c (heights c n) s.root) (hroot : s.root = some x)
    (hsub : Sub g (above c) s) (hheight : s.height = n + 1) (hbal : s.Balanced) (hfits : Fits c n)
    (hlean : (g.knot x).balance ≠ 0) (hnodup : (plug c s).toList.Nodup) (hfuel : c.length < fuel) :
    ∃ g', postInsert fuel g x = some g' ∧ Settled g' (plug c s).toList := by
  induction c generalizing g s x n fuel with
  | nil =>
      obtain ⟨fuel, rfl⟩ := Nat.exists_eq_succ_of_ne_zero (Nat.ne_of_gt hfuel)
      refine ⟨g, ?_, s, ⟨hup, hsub⟩, hbal, rfl⟩
      obtain ⟨a, y, e, rfl⟩ := BinTree.exists_join .left (s := s) (by omega)
      rw [BinTree.root_join] at hroot
      cases hroot
      rw [postInsert, (sub_join.mp hsub).1, parent_knotAt]
      rfl
  | cons f c ih =>
      obtain ⟨fuel, rfl⟩ := Nat.exists_eq_succ_of_ne_zero (Nat.ne_of_gt (Nat.zero_lt_of_lt hfuel))
      obtain ⟨hlow, hhigh, hsib, hfits⟩ := hfits
      obtain ⟨a, y, e, rfl⟩ := BinTree.exists_join f.side (s := s) (by omega)
      rw [BinTree.root_join] at hroot
      cases hroot
      have hsign := f.side.sign_cases
      have hknot := (sub_join.mp hsub).1
      have hlean' : a.height ≠ e.height := by
        rintro heq
        rw [hknot, balance_knotAt, heq, Int.sub_self, Int.mul_zero] at hlean
        exact hlean rfl
      have hall := ((BinTree.perm_join f.side (.join f.side a x e) f.node f.sibling).append_right
        (around c)).nodup_iff.mp (nodup_plug.mp hnodup)
      simp only [List.cons_append, List.nodup_cons, List.mem_append, not_or,
        BinTree.mem_toList_join] at hall
      obtain ⟨⟨⟨⟨hxf, -⟩, -⟩, -⟩, hall⟩ := hall
      have hxb : x ∉ f.sibling.toList := by
        intro hmem
        have hdisj := (List.nodup_append.mp (List.nodup_append.mp hall).1).2.2
        exact hdisj x (BinTree.mem_toList_join.mpr (.inl rfl)) x hmem rfl
      have hparent : (g.knot x).parent = some f.node := by
        rw [hknot, parent_knotAt]
        rfl
      have hside := sideOf_eq (BinTree.root_join f.side a x e ▸ hup) hxb
      obtain ⟨hsub₁, hup₁⟩ := @sub_addBalance _ _ g c _ n _ f f.side.sign hup hsub hnodup (by
        rw [hheight]
        rcases hsign with hs | hs <;> rw [hs] <;> omega)
      obtain ⟨g₁, hg₁⟩ : ∃ g₁, g₁ = addBalance g f.node f.side.sign := ⟨_, rfl⟩
      rw [← hg₁] at hsub₁ hup₁
      have hbal₁ : (g₁.knot f.node).balance
          = f.side.sign * (((n + 1 : Nat) : Int) - f.sibling.height) := by
        rw [(sub_join.mp hsub₁).1, balance_knotAt, hheight]
      have hbal₂ : (g₁.knot x).balance = f.side.sign * ((a.height : Int) - e.height) := by
        rw [hg₁, addBalance, knot_modify_of_ne _ _ (Ne.symm hxf), hknot, balance_knotAt]
      have hstep : postInsert (fuel + 1) g x
          = if (g₁.knot f.node).balance = 0 then some g₁
            else if (g₁.knot f.node).balance = f.side.sign then postInsert fuel g₁ f.node
            else if (g₁.knot x).balance = f.side.sign then avlRotate f.side g₁ f.node
            else
              (avlRotate f.side.flip g₁ x).bind fun g =>
                (g.knot x).parent.bind fun up =>
                  (g.knot up).parent.bind fun parent => avlRotate f.side g parent := by
        rw [postInsert, hparent]
        simp only [hside, ← hg₁]
      rw [hstep]
      have hcase : n + 1 = f.sibling.height ∨ n = f.sibling.height ∨ n = f.sibling.height + 1 := by
        omega
      obtain ⟨hlow₁, hhigh₁, hbala, hbale⟩ := BinTree.balanced_join.mp hbal
      rw [BinTree.height_join] at hheight
      rcases hcase with hcase | hcase | hcase
      · -- the other side was higher
        have hzero : (g₁.knot f.node).balance = 0 := by
          rw [hbal₁, hcase, Int.sub_self, Int.mul_zero]
        rw [if_pos hzero]
        refine ⟨g₁, rfl, ?_⟩
        have hfinal := @settled_plug _ g₁ c (.join f.side (.join f.side a x e) f.node f.sibling)
          (1 + max n f.sibling.height) (by rw [BinTree.root_join]; exact hup₁) hsub₁
          (by simp only [BinTree.height_join]; omega)
          (BinTree.balanced_join.mpr ⟨by simp only [BinTree.height_join]; omega,
            by simp only [BinTree.height_join]; omega, hbal, hsib⟩) hfits
        exact hfinal
      · -- both sides were even: the tree above has grown, too
        have hone : (g₁.knot f.node).balance = f.side.sign := by
          rw [hbal₁, hcase]
          rcases hsign with hs | hs <;> rw [hs] <;> omega
        rw [if_neg (by rw [hone]; rcases hsign with hs | hs <;> omega), if_pos hone]
        refine @ih g₁ (.join f.side (.join f.side a x e) f.node f.sibling) f.node
          (1 + max n f.sibling.height) fuel (by rw [BinTree.root_join]; exact hup₁)
          (BinTree.root_join ..) hsub₁ (by simp only [BinTree.height_join]; omega)
          (BinTree.balanced_join.mpr ⟨by simp only [BinTree.height_join]; omega,
            by simp only [BinTree.height_join]; omega, hbal, hsib⟩) hfits
          (by rw [hone]; rcases hsign with hs | hs <;> omega) hnodup
          (by simpa using Nat.lt_of_succ_lt_succ hfuel)
      · -- this side was higher: one rotation, or two
        rw [if_neg (by rw [hbal₁]; rcases hsign with hs | hs <;> rw [hs] <;> omega),
          if_neg (by rw [hbal₁]; rcases hsign with hs | hs <;> rw [hs] <;> omega)]
        by_cases hout : e.height < a.height
        · rw [if_pos (by rw [hbal₂]; rcases hsign with hs | hs <;> rw [hs] <;> omega)]
          obtain ⟨g₂, hrotate, hup₂, hsub₂⟩ := avlRotate_spec hup₁ hsub₁ hnodup
          refine ⟨g₂, hrotate, ?_⟩
          have hfinal := @settled_plug _ g₂ c
            (.join f.side a x (.join f.side e f.node f.sibling)) (1 + max n f.sibling.height)
            (by rw [BinTree.root_join]; exact hup₂) hsub₂ (by simp only [BinTree.height_join]; omega)
            (BinTree.balanced_join.mpr ⟨by simp only [BinTree.height_join]; omega,
              by simp only [BinTree.height_join]; omega, hbala,
              BinTree.balanced_join.mpr ⟨by omega, by omega, hbale, hsib⟩⟩) hfits
          rw [toList_plug_congr c (BinTree.toList_lift ..)] at hfinal
          exact hfinal
        · rw [if_neg (by rw [hbal₂]; rcases hsign with hs | hs <;> rw [hs] <;> omega)]
          obtain ⟨e₁, z, e₂, rfl⟩ := BinTree.exists_join f.side (s := e) (by omega)
          obtain ⟨hlow₂, hhigh₂, hbal₃, hbal₄⟩ := BinTree.balanced_join.mp hbale
          obtain ⟨g₂, g₃, hrotate₂, hxz, hzy, hrotate₃, hup₃, hsub₃⟩ :=
            avlRotate_twice hup₁ hsub₁ hnodup (by omega)
          refine ⟨g₃, ?_, ?_⟩
          · rw [hrotate₂, Option.bind_some, hxz, Option.bind_some, hzy, Option.bind_some, hrotate₃]
          · simp only [BinTree.height_join] at hheight hout hlow₁ hhigh₁ hlean'
            have hfinal := @settled_plug _ g₃ c (.join f.side (.join f.side a x e₁) z
                (.join f.side e₂ f.node f.sibling)) (1 + max n f.sibling.height)
              (by rw [BinTree.root_join]; exact hup₃) hsub₃ (by simp only [BinTree.height_join]; omega)
              (BinTree.balanced_join.mpr ⟨by simp only [BinTree.height_join]; omega,
                by simp only [BinTree.height_join]; omega,
                BinTree.balanced_join.mpr ⟨by omega, by omega, hbala, hbal₃⟩,
                BinTree.balanced_join.mpr ⟨by omega, by omega, hbal₄, hsib⟩⟩) hfits
            have horder := BinTree.toList_lift_twice f.side a x e₁ z e₂ f.node f.sibling
            rw [toList_plug_congr c horder] at hfinal
            exact hfinal

/-- A new leaf, and the balance above it. -/
theorem addLeaf_spec {new : ν} {k : Int} (hrep : Rep g (plug (f :: c) .nil))
    (hnodup : (plug (f :: c) .nil).toList.Nodup) (hnew : new ∉ (plug (f :: c) .nil).toList)
    (hknot : g.knot new = ⟨none, none, none, 0⟩) (hk : k = f.side.sign * (1 - (f.sibling.height : Int))) :
    Up (addLeaf g f.side f.node new k) c (heights c (1 + f.sibling.height)) (some f.node) ∧
      Sub (addLeaf g f.side f.node new k) (above c)
        (.join f.side (.node .nil new .nil) f.node f.sibling) := by
  obtain ⟨⟨hf, hsib, hup⟩, -⟩ := rep_plug.mp hrep
  rw [mem_plug, not_or] at hnew
  have hnodup : (around (f :: c)).Nodup := nodup_plug.mp hnodup
  obtain ⟨hf₁, -⟩ := List.nodup_cons.mp hnodup
  obtain ⟨-, hnew⟩ := hnew
  have hnf : new ≠ f.node := by
    rintro rfl
    exact hnew List.mem_cons_self
  have hsame : ∀ z, z ≠ f.node → z ≠ new → (addLeaf g f.side f.node new k).knot z = g.knot z := by
    intro z hzf hzn
    rw [addLeaf, knot_modify_of_ne _ _ hzf, knot_modify_of_ne _ _ hzn, knot_modify_of_ne _ _ hzf]
  refine ⟨hup.congr rfl ?_, sub_join.mpr ⟨?_, ⟨?_, trivial, trivial⟩, hsib.congr ?_⟩⟩
  · intro z hz
    apply hsame
    · rintro rfl
      exact hf₁ (List.mem_append_right _ hz)
    · rintro rfl
      exact hnew (List.mem_cons_of_mem _ (List.mem_append_right _ hz))
  · rw [addLeaf, knot_modify_self, knot_modify_of_ne _ _ hnf.symm, knot_modify_self, hf]
    apply Knot.ext_child f.side
    · simp
    · rw [Knot.child_setChild, child_knotAt]
      rfl
    · rw [Knot.child_flip_setChild, child_flip_knotAt]
      cases f.side <;> rfl
    · rw [Knot.balance_setChild, balance_knotAt, hk]
      rfl
  · rw [addLeaf, knot_modify_of_ne _ _ hnf, knot_modify_self, knot_modify_of_ne _ _ hnf, hknot]
    rfl
  · intro z hz
    apply hsame
    · rintro rfl
      exact hf₁ (List.mem_append_left _ hz)
    · rintro rfl
      exact hnew (List.mem_cons_of_mem _ (List.mem_append_left _ hz))

/-- What the recursion of `avl_post_delete` has to do for a tree at the place `c`
that was of height `n`. -/
def Recovers (again : Skeleton ν → ν → Option (Skeleton ν)) (c : List (Frame ν)) (n : Nat) : Prop :=
  ∀ g s x, Up g c (heights c n) s.root → s.root = some x → Sub g (above c) s → s.height + 1 = n →
    s.Balanced → (plug c s).toList.Nodup →
      ∃ g', again g x = some g' ∧ Settled g' (plug c s).toList

/-- The balance below a frame is restored when a tree has lost a level. -/
theorem shrink_spec {again : Skeleton ν → ν → Option (Skeleton ν)}
    (hagain : Recovers again c (1 + max n f.sibling.height))
    (hup : Up g (f :: c) (heights (f :: c) n) s.root) (hsub : Sub g (some f.node) s)
    (hheight : s.height + 1 = n) (hbal : s.Balanced) (hfits : Fits (f :: c) n)
    (hnodup : (plug (f :: c) s).toList.Nodup) :
    ∃ g', shrink again f.side g f.node = some g' ∧ Settled g' (plug (f :: c) s).toList := by
  obtain ⟨hlow, hhigh, hsib, hfits⟩ := hfits
  have hsign := f.side.sign_cases
  obtain ⟨hsub₁, hup₁⟩ := @sub_addBalance _ _ g c s n _ f (-f.side.sign) hup hsub hnodup (by
    rcases hsign with hs | hs <;> rw [hs] <;> omega)
  obtain ⟨g₁, hg₁⟩ : ∃ g₁, g₁ = addBalance g f.node (-f.side.sign) := ⟨_, rfl⟩
  rw [← hg₁] at hsub₁ hup₁
  obtain ⟨hknot, -, hsibsub⟩ := sub_join.mp hsub₁
  have hbal₁ : (g₁.knot f.node).balance
      = f.side.sign * ((s.height : Int) - f.sibling.height) := by
    rw [hknot, balance_knotAt]
  simp only [shrink, ← hg₁]
  have hcase : n = f.sibling.height + 1 ∨ n = f.sibling.height ∨ n + 1 = f.sibling.height := by
    omega
  rcases hcase with hcase | hcase | hcase
  · -- both sides are even: the tree above has lost a level, too
    have hzero : (g₁.knot f.node).balance = 0 := by
      rw [hbal₁]
      rcases hsign with hs | hs <;> rw [hs] <;> omega
    rw [if_pos hzero]
    exact hagain g₁ (.join f.side s f.node f.sibling) f.node
      (by rw [BinTree.root_join]; exact hup₁) (BinTree.root_join ..) hsub₁
      (by simp only [BinTree.height_join]; omega)
      (BinTree.balanced_join.mpr ⟨by omega, by omega, hbal, hsib⟩) hnodup
  · -- the other side is higher by one
    rw [if_neg (by rw [hbal₁]; rcases hsign with hs | hs <;> rw [hs] <;> omega),
      if_pos (by rw [hbal₁]; rcases hsign with hs | hs <;> rw [hs] <;> omega)]
    refine ⟨g₁, rfl, ?_⟩
    exact @settled_plug _ g₁ c (.join f.side s f.node f.sibling) (1 + max n f.sibling.height)
      (by rw [BinTree.root_join]; exact hup₁) hsub₁ (by simp only [BinTree.height_join]; omega)
      (BinTree.balanced_join.mpr ⟨by omega, by omega, hbal, hsib⟩) hfits
  · -- the other side is higher by two: its tree is lifted
    rw [if_neg (by rw [hbal₁]; rcases hsign with hs | hs <;> rw [hs] <;> omega),
      if_neg (by rw [hbal₁]; rcases hsign with hs | hs <;> rw [hs] <;> omega)]
    obtain ⟨d, x, b⟩ := f
    dsimp only at *
    obtain ⟨a, y, e, rfl⟩ := BinTree.exists_join d.flip (s := b) (by omega)
    obtain ⟨hlow₁, hhigh₁, hbala, hbale⟩ := BinTree.balanced_join.mp hsib
    have hturn : BinTree.join d s x (.join d.flip a y e) = .join d.flip (.join d.flip a y e) x s := by
      rw [BinTree.join_flip d _ x s]
    have hchild : (g₁.knot x).child d.flip = some y := by
      rw [hknot, child_flip_knotAt, BinTree.root_join]
    have hbal₂ : (g₁.knot y).balance = -(d.sign * ((a.height : Int) - e.height)) := by
      rw [(sub_join.mp hsibsub).1, balance_knotAt, Side.sign_flip, Int.neg_mul]
    rw [hchild, Option.bind_some]
    have horder : (plug (⟨d, x, .join d.flip a y e⟩ :: c) s).toList
        = (plug c (.join d.flip (.join d.flip a y e) x s)).toList := by
      rw [plug, hturn]
    rw [horder] at hnodup ⊢
    rw [hturn] at hsub₁
    simp only [BinTree.height_join] at hcase hlow hhigh hfits hagain hup₁
    have heven : a.height = e.height ∨ a.height = e.height + 1 ∨ a.height + 1 = e.height := by
      omega
    rcases heven with heven | heven | heven
    · rw [if_pos (by rw [hbal₂, heven, Int.sub_self, Int.mul_zero, Int.neg_zero])]
      obtain ⟨g₂, hrotate, hup₂, hsub₂⟩ := avlRotate_spec hup₁ hsub₁ hnodup
      refine ⟨g₂, hrotate, ?_⟩
      have hfinal := @settled_plug _ g₂ c (.join d.flip a y (.join d.flip e x s)) _
        (by rw [BinTree.root_join]; exact hup₂) hsub₂ (by simp only [BinTree.height_join]; omega)
        (BinTree.balanced_join.mpr ⟨by simp only [BinTree.height_join]; omega,
          by simp only [BinTree.height_join]; omega, hbala,
          BinTree.balanced_join.mpr ⟨by omega, by omega, hbale, hbal⟩⟩) hfits
      rw [toList_plug_congr c (BinTree.toList_lift ..)] at hfinal
      exact hfinal
    · rw [if_neg (by rw [hbal₂]; rcases hsign with hs | hs <;> rw [hs] <;> omega),
        if_pos (by rw [hbal₂]; rcases hsign with hs | hs <;> rw [hs] <;> omega)]
      obtain ⟨g₂, hrotate, hup₂, hsub₂⟩ := avlRotate_spec hup₁ hsub₁ hnodup
      have hparent : (g₂.knot x).parent = some y := by
        rw [(sub_join.mp (sub_join.mp hsub₂).2.2).1, parent_knotAt]
      have hlist := toList_plug_congr c (BinTree.toList_lift d.flip a y e x s)
      rw [hrotate, Option.bind_some, hparent, Option.bind_some, ← hlist]
      rw [← hlist] at hnodup
      exact hagain g₂ _ y (by rw [BinTree.root_join]; exact hup₂) (BinTree.root_join ..) hsub₂
        (by simp only [BinTree.height_join]; omega)
        (BinTree.balanced_join.mpr ⟨by simp only [BinTree.height_join]; omega,
          by simp only [BinTree.height_join]; omega, hbala,
          BinTree.balanced_join.mpr ⟨by omega, by omega, hbale, hbal⟩⟩) hnodup
    · rw [if_neg (by rw [hbal₂]; rcases hsign with hs | hs <;> rw [hs] <;> omega),
        if_neg (by rw [hbal₂]; rcases hsign with hs | hs <;> rw [hs] <;> omega)]
      obtain ⟨e₁, z, e₂, rfl⟩ := BinTree.exists_join d.flip (s := e) (by omega)
      obtain ⟨hlow₂, hhigh₂, hbal₃, hbal₄⟩ := BinTree.balanced_join.mp hbale
      obtain ⟨g₂, g₃, hrotate₂, -, -, hrotate₃, hup₃, hsub₃⟩ :=
        avlRotate_twice hup₁ hsub₁ hnodup heven
      rw [Side.flip_flip] at hrotate₂
      have hparent : (g₃.knot x).parent = some z := by
        rw [(sub_join.mp (sub_join.mp hsub₃).2.2).1, parent_knotAt]
      have hlist := toList_plug_congr c (BinTree.toList_lift_twice d.flip a y e₁ z e₂ x s)
      rw [hrotate₂, Option.bind_some, hrotate₃, Option.bind_some, hparent, Option.bind_some, ← hlist]
      rw [← hlist] at hnodup
      simp only [BinTree.height_join] at hcase hlow hhigh heven hlow₁ hhigh₁
      exact hagain g₃ _ z (by simp only [BinTree.root_join, BinTree.height_join] at hup₃ ⊢; exact hup₃)
        (BinTree.root_join ..) hsub₃ (by simp only [BinTree.height_join]; omega)
        (BinTree.balanced_join.mpr ⟨by simp only [BinTree.height_join]; omega,
          by simp only [BinTree.height_join]; omega,
          BinTree.balanced_join.mpr ⟨by omega, by omega, hbala, hbal₃⟩,
          BinTree.balanced_join.mpr ⟨by omega, by omega, hbal₄, hbal⟩⟩) hnodup

/-- **`avl_post_delete`** restores the balance above a tree that has lost a level. -/
theorem avlPostDelete_spec {fuel : Nat} (hfits : Fits c n) (hfuel : c.length < fuel) :
    Recovers (avlPostDelete (ν := ν) fuel) c n := by
  induction c generalizing n fuel with
  | nil =>
      intro g s x hup hroot hsub hheight hbal hnodup
      obtain ⟨fuel, rfl⟩ := Nat.exists_eq_succ_of_ne_zero (Nat.ne_of_gt hfuel)
      obtain ⟨l, y, r, rfl⟩ : ∃ l y r, s = .node l y r := by
        cases s with
        | nil => cases hroot
        | node l y r => exact ⟨l, y, r, rfl⟩
      cases hroot
      refine ⟨g, ?_, _, ⟨hup, hsub⟩, hbal, rfl⟩
      rw [avlPostDelete, hsub.1]
      rfl
  | cons f c ih =>
      intro g s x hup hroot hsub hheight hbal hnodup
      obtain ⟨fuel, rfl⟩ := Nat.exists_eq_succ_of_ne_zero (Nat.ne_of_gt (Nat.zero_lt_of_lt hfuel))
      have hagain := @ih (1 + max n f.sibling.height) fuel hfits.2.2.2
        (Nat.lt_of_succ_lt_succ hfuel)
      obtain ⟨g', hshrink, hsettled⟩ := shrink_spec hagain hup hsub hheight hbal hfits hnodup
      refine ⟨g', ?_, hsettled⟩
      have hxb : x ∉ f.sibling.toList := by
        intro hmem
        have hdisj := (List.nodup_append.mp (nodup_plug.mp hnodup)).2.2
        exact hdisj x (BinTree.root_mem hroot) x
          (List.mem_cons_of_mem _ (List.mem_append_left _ hmem)) rfl
      have hparent : (g.knot x).parent = some f.node := by
        cases s with
        | nil => cases hroot
        | node l y r =>
            cases hroot
            rw [hsub.1]
            rfl
      rw [avlPostDelete, hparent]
      simp only [sideOf_eq (hroot ▸ hup) hxb, hshrink]

/-! ## Taking a node out -/

omit [DecidableEq ν] in
theorem avlLocalMin_spec {fuel : Nat} {p : Option ν} (hsub : Sub g p s) (hroot : s.root = some x)
    (hfuel : s.height < fuel) : ∃ m xs, avlLocalMin fuel g x = some m ∧ (g.knot m).left = none ∧
      s.toList = m :: xs := by
  induction s generalizing p x fuel with
  | nil => cases hroot
  | node l y r ihl =>
      cases hroot
      obtain ⟨fuel, rfl⟩ := Nat.exists_eq_succ_of_ne_zero (Nat.ne_of_gt (Nat.zero_lt_of_lt hfuel))
      simp only [BinTree.height] at hfuel
      rw [avlLocalMin, hsub.1]
      cases hl : l.root with
      | none =>
          cases BinTree.root_eq_none hl
          exact ⟨y, r.toList, rfl, by rw [hsub.1]; rfl, rfl⟩
      | some z =>
          obtain ⟨m, xs, hmin, hleft, hlist⟩ := @ihl z fuel _ hsub.2.1 hl (by omega)
          exact ⟨m, xs ++ y :: r.toList, hmin, hleft, by rw [BinTree.toList_node, hlist]; rfl⟩

/-- What stays of the list of a tree whose node at a place is taken out. -/
theorem erase_plug {l r : BinTree ν} (hnodup : (plug c (.node l x r)).toList.Nodup) :
    (plug c (.node l x r)).toList.erase x = before c ++ l.toList ++ (r.toList ++ after c) := by
  have hlist : (plug c (.node l x r)).toList
      = (before c ++ l.toList) ++ x :: (r.toList ++ after c) := by
    simp [toList_plug]
  rw [hlist] at hnodup ⊢
  have hx : x ∉ before c ++ l.toList := fun hmem =>
    (List.nodup_append.mp hnodup).2.2 x hmem x List.mem_cons_self rfl
  rw [List.erase_append_right _ hx, List.erase_cons_head]

/-- The only child takes the place of a node. -/
theorem promoteChild_spec {fuel : Nat} (hup : Up g c (heights c n) (some x))
    (hknot : (g.knot x).parent = above c) (hsub : Sub g (some x) s) (hroot : s.root = some y)
    (hheight : s.height + 1 = n) (hbal : s.Balanced) (hfits : Fits c n)
    (hnodup : (x :: (s.toList ++ around c)).Nodup) (hfuel : c.length < fuel) :
    ∃ g', promoteChild fuel g x y = some g' ∧ Settled g' (plug c s).toList := by
  obtain ⟨hx, hnodup⟩ := List.nodup_cons.mp hnodup
  obtain ⟨hns, hnc, hdisj⟩ := List.nodup_append.mp hnodup
  rw [List.mem_append, not_or] at hx
  have hadopt : (g.modify y fun k => { k with parent := above c }) = g.adopt s.root (above c) := by
    rw [hroot]
    rfl
  obtain ⟨g₁, hg₁⟩ : ∃ g₁, g₁ = (g.adopt s.root (above c)).relink (above c) x (some y) := ⟨_, rfl⟩
  have hup₁ : Up g₁ c (heights c n) (some y) := by
    rw [hg₁]
    refine (hup.congr (root_adopt ..) ?_).relink (List.nodup_cons.mpr ⟨hx.2, hnc⟩) (some y)
    intro z hz
    apply knot_adopt_of_ne
    intro heq
    exact hdisj z (BinTree.root_mem heq) z hz rfl
  have hsub₁ : Sub g₁ (above c) s := by
    apply (hsub.adopt hns (above c)).congr
    intro z hz
    rw [hg₁]
    apply knot_relink_of_ne
    intro heq
    exact hdisj z hz z (above_mem heq) rfl
  have hpromote : promoteChild fuel g x y
      = match above c with
        | none => some g₁
        | some _ => avlPostDelete fuel g₁ y := by
    rw [promoteChild, hknot]
    simp only [hadopt, ← hg₁]
  rw [hpromote]
  cases c with
  | nil =>
      refine ⟨g₁, rfl, s, ⟨?_, hsub₁⟩, hbal, rfl⟩
      rw [hroot]
      exact hup₁
  | cons f c =>
      exact avlPostDelete_spec hfits hfuel g₁ s y (by rw [hroot]; exact hup₁) hroot hsub₁ hheight hbal
        (nodup_plug.mpr hnodup)

/-- A node with one child at most is taken out. -/
theorem avlDeleteWorker_simple {fuel : Nat} {l r : BinTree ν} (hrep : Rep g (plug c (.node l x r)))
    (hbal : (plug c (.node l x r)).Balanced) (hnodup : (plug c (.node l x r)).toList.Nodup)
    (honly : l = .nil ∨ r = .nil) (hfuel : c.length < fuel) :
    ∃ g', avlDeleteWorker (fuel + 1) g x = some g' ∧
      Settled g' ((plug c (.node l x r)).toList.erase x) := by
  rw [erase_plug hnodup]
  obtain ⟨hup, hknot, hl, hr⟩ := rep_plug.mp hrep
  obtain ⟨⟨hlow, hhigh, hball, hbalr⟩, hfits⟩ := balanced_plug.mp hbal
  have hall := ((BinTree.perm_join .left l x r).append_right (around c)).nodup_iff.mp
    (nodup_plug.mp hnodup)
  rw [List.cons_append, List.append_assoc] at hall
  rw [avlDeleteWorker, hknot]
  cases l with
  | nil =>
      cases r with
      | nil =>
          cases c with
          | nil => exact ⟨{ g with root := none }, rfl, .nil, ⟨rfl, trivial⟩, trivial, rfl⟩
          | cons f c =>
              have hup₁ := hup.relink hall none
              have hxb : x ∉ f.sibling.toList := by
                intro hmem
                exact (List.nodup_cons.mp hall).1
                  (List.mem_cons_of_mem _ (List.mem_append_left _ hmem))
              have hnodup₁ : (plug (f :: c) .nil).toList.Nodup :=
                nodup_plug.mpr (List.nodup_cons.mp hall).2
              obtain ⟨g', hshrink, hsettled⟩ := @shrink_spec _ _ _ c .nil 1 f (avlPostDelete fuel)
                (avlPostDelete_spec hfits.2.2.2 (Nat.lt_of_succ_lt hfuel)) hup₁ trivial rfl trivial
                hfits hnodup₁
              refine ⟨g', ?_, ?_⟩
              · have hside := sideOf_eq hup hxb
                have hright : f.side = .right → (g.knot f.node).right = some x := by
                  intro hd
                  rw [hup.1, hd]
                  rfl
                simp only [sideOf] at hside
                simp only [above, relink] at hshrink
                simp only [BinTree.root, above]
                split at hside
                · next hleft =>
                    rw [if_pos hleft, ← hside] at hshrink
                    rw [if_pos hleft, hshrink]
                · next hleft =>
                    rw [if_neg hleft, ← hside] at hshrink
                    rw [if_neg hleft, if_pos (hright hside.symm), hshrink]
              · rw [toList_plug] at hsettled
                simpa using hsettled
      | node a y b =>
          have hpromote := @promoteChild_spec _ _ g c (.node a y b) x y _ fuel hup
            (by rw [hknot]) hr rfl
            (by simp only [BinTree.height]; omega) hbalr hfits (by simpa using hall) hfuel
          rw [toList_plug] at hpromote
          simpa [BinTree.root] using hpromote
  | node a y b =>
      have hr : r = .nil := by
        rcases honly with h | h
        · cases h
        · exact h
      subst hr
      have hpromote := @promoteChild_spec _ _ g c (.node a y b) x y _ fuel hup
        (by rw [hknot]) hl rfl
        (by simp only [BinTree.height]; omega) hball hfits (by simpa using hall) hfuel
      rw [toList_plug] at hpromote
      simpa [BinTree.root] using hpromote

/-- **`avl_delete_worker`** takes a node out of a balanced tree. -/
theorem avlDeleteWorker_spec {fuel : Nat} (hrep : Rep g s) (hbal : s.Balanced)
    (hnodup : s.toList.Nodup) (hx : x ∈ s.toList) (hfuel : s.toList.length < fuel) :
    ∃ g', avlDeleteWorker (fuel + 2) g x = some g' ∧ Settled g' (s.toList.erase x) := by
  obtain ⟨c, l, r, rfl⟩ := exists_plug hx
  have hc : c.length < fuel := Nat.lt_trans (length_lt_plug c l x r) hfuel
  by_cases honly : l = .nil ∨ r = .nil
  · exact avlDeleteWorker_simple hrep hbal hnodup honly (Nat.lt_succ_of_lt hc)
  rw [not_or] at honly
  obtain ⟨-, hknot, -, hr⟩ := rep_plug.mp hrep
  have hsplit : (plug c (.node l x r)).toList
      = (before c ++ l.toList) ++ x :: (r.toList ++ after c) := by
    simp [toList_plug]
  obtain ⟨z, hz⟩ : ∃ z, r.root = some z := by
    cases r with
    | nil => exact absurd rfl honly.2
    | node a z b => exact ⟨z, rfl⟩
  obtain ⟨w, hw⟩ : ∃ w, l.root = some w := by
    cases l with
    | nil => exact absurd rfl honly.1
    | node a w b => exact ⟨w, rfl⟩
  -- the successor goes first
  have hsize : r.height < fuel + 1 := by
    have hle := r.height_le_length
    rw [hsplit] at hfuel
    simp only [List.length_append, List.length_cons] at hfuel
    omega
  obtain ⟨m, xs, hmin, hleft, hlist⟩ := avlLocalMin_spec hr hz hsize
  rw [hlist, List.cons_append] at hsplit
  have hall := hnodup
  rw [hsplit] at hall
  obtain ⟨-, hall, hdisj⟩ := List.nodup_append.mp hall
  obtain ⟨hxm, -⟩ := List.nodup_cons.mp hall
  have hmx : m ≠ x := by
    rintro rfl
    exact hxm List.mem_cons_self
  have hxL : x ∉ before c ++ l.toList := fun hmem => hdisj x hmem x List.mem_cons_self rfl
  have hmL : m ∉ before c ++ l.toList := fun hmem =>
    hdisj m hmem m (List.mem_cons_of_mem x List.mem_cons_self) rfl
  have hmem : m ∈ (plug c (.node l x r)).toList := by
    rw [hsplit]
    exact List.mem_append_right _ (List.mem_cons_of_mem x List.mem_cons_self)
  have herase : (plug c (.node l x r)).toList.erase m
      = (before c ++ l.toList) ++ x :: (xs ++ after c) := by
    rw [hsplit, List.erase_append_right _ hmL, List.erase_cons_tail (by simpa using hmx.symm),
      List.erase_cons_head]
  obtain ⟨c', l', r', hplug⟩ := exists_plug hmem
  have hsimple : ∃ g', avlDeleteWorker (fuel + 1) g m = some g' ∧
      Settled g' ((plug c (.node l x r)).toList.erase m) := by
    rw [hplug] at hrep hbal hnodup hfuel ⊢
    have hl' : l'.root = none := by
      obtain ⟨-, hknot', -⟩ := rep_plug.mp hrep
      rw [hknot'] at hleft
      exact hleft
    exact avlDeleteWorker_simple hrep hbal hnodup (.inl (BinTree.root_eq_none hl'))
      (Nat.lt_trans (length_lt_plug ..) hfuel)
  obtain ⟨g₁, hworker, s₁, hrep₁, hbal₁, hlist₁⟩ := hsimple
  -- and takes the place of the node then
  rw [herase] at hlist₁
  have hx₁ : x ∈ s₁.toList := by
    rw [hlist₁]
    exact List.mem_append_right _ List.mem_cons_self
  obtain ⟨c₁, l₁, r₁, rfl⟩ := exists_plug hx₁
  have hnodup₁ : (plug c₁ (.node l₁ x r₁)).toList.Nodup := by
    rw [hlist₁, ← herase]
    exact hnodup.erase m
  have hm₁ : m ∉ (plug c₁ (.node l₁ x r₁)).toList := by
    rw [hlist₁, ← herase]
    exact hnodup.not_mem_erase
  have hbal₂ : (plug c₁ (.node l₁ m r₁)).Balanced := by
    rw [balanced_plug] at hbal₁ ⊢
    exact hbal₁
  refine ⟨g₁.takePlace x m, ?_, plug c₁ (.node l₁ m r₁), hrep₁.takePlace hnodup₁ hm₁,
    hbal₂, ?_⟩
  · rw [avlDeleteWorker, hknot]
    simp only [hw, hz, hmin, Option.bind_some, hworker, Option.map_some]
  · have hsplit₁ : (plug c₁ (.node l₁ x r₁)).toList
        = (before c₁ ++ l₁.toList) ++ x :: (r₁.toList ++ after c₁) := by
      simp [toList_plug]
    rw [hsplit₁] at hlist₁ hnodup₁
    obtain ⟨-, hxR, hdisj₁⟩ := List.nodup_append.mp hnodup₁
    obtain ⟨hL, -, hR⟩ := (List.append_cons_inj_of_notMem
      (fun hmem => hdisj₁ x hmem x List.mem_cons_self rfl) (List.nodup_cons.mp hxR).1).mp hlist₁
    rw [hsplit, List.erase_append_right _ hxL, List.erase_cons_head, ← hL, ← hR]
    simp [toList_plug]

end Libubox.Avl
