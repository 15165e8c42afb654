import Libubox.Avl.Delete

/-!
# Runs of a tree

The states that `avl_init`, `avl_insert` and `avl_delete` lead to.  `born` are the
nodes in the tree in the order of their insertion: those whose `avl_insert` has
returned `0` and that have not been deleted since.
-/

namespace Libubox.Avl

open Trees Skeleton Circles

variable {ν κ : Type*} [DecidableEq ν]

/-- The key that the caller has given to a node. -/
def AvlTree.setKey (t : AvlTree ν κ) (x : ν) (k : κ) : AvlTree ν κ :=
  { t with key := Function.update t.key x k }

/-- The states of a tree.  The loops have fuel for the nodes that are there. -/
inductive Reachable (comp : κ → κ → Int) (listHead : ν) (allowDups : Bool) :
    AvlTree ν κ → List ν → Prop
  | init (knot : ν → Knot ν) (key : ν → κ) (leader : ν → Bool) (list : Links ν) :
      Reachable comp listHead allowDups (avlInit listHead allowDups knot key leader list) []
  | insert {t t' : AvlTree ν κ} {born : List ν} {fuel : Nat} {x : ν} {k : κ} {ok : Bool} :
      Reachable comp listHead allowDups t born → x ∉ born → x ≠ listHead →
      born.length + 2 < fuel → (t.setKey x k).avlInsert comp fuel x = some (ok, t') →
      Reachable comp listHead allowDups t' (if ok then born ++ [x] else born)
  | delete {t t' : AvlTree ν κ} {born : List ν} {fuel : Nat} {x : ν} :
      Reachable comp listHead allowDups t born → x ∈ born → born.length + 2 < fuel →
      t.avlDelete fuel x = some t' → Reachable comp listHead allowDups t' (born.erase x)

variable {comp : κ → κ → Int} {listHead : ν} {allowDups : Bool} {t t' : AvlTree ν κ}
  {gs : List (ν × List ν)} {born : List ν} {x : ν} {k : κ}

/-- A node outside of the tree is like new. -/
theorem Sound.setKey (h : Sound comp t gs born) (hx : x ∉ born) :
    Sound comp (t.setKey x k) gs born := by
  refine h.congr rfl rfl rfl rfl rfl ?_
  intro y hy
  have hne : y ≠ x := fun heq => hx (heq ▸ hy)
  exact ⟨rfl, rfl, by simp [AvlTree.setKey, hne]⟩

/-- An empty tree. -/
theorem sound_init (comp : κ → κ → Int) (listHead : ν) (allowDups : Bool) (knot : ν → Knot ν)
    (key : ν → κ) (leader : ν → Bool) (list : Links ν) :
    Sound comp (avlInit listHead allowDups knot key leader list) [] [] := by
  refine ⟨⟨.nil, ⟨rfl, trivial⟩, trivial, rfl⟩, .nil, ?_, .refl [], ?_, ?_, ?_, ?_, rfl, ?_⟩
  · simp
  · simp
  · simp
  · simp [Circles.Circle, Links.Follows, avlInit]
  · simp [avlInit]
  · simp

/-- What holds of a state of a run. -/
structure Runs (comp : κ → κ → Int) (listHead : ν) (allowDups : Bool) (t : AvlTree ν κ)
    (born : List ν) : Prop where
  sound : ∃ gs, Sound comp t gs born
  head : t.listHead = listHead
  dups : t.allowDups = allowDups

/-- **`avl_insert`** on a state of a run, with the key the caller has set. -/
theorem Runs.avlInsert {fuel : Nat} (hcomp : TotalPreorder comp)
    (h : Runs comp listHead allowDups t born) (hx : x ∉ born) (hhead : x ≠ listHead)
    (hfuel : born.length + 2 < fuel) :
    ((allowDups = false ∧ ∃ y ∈ born, comp k (t.key y) = 0) ∧
      (t.setKey x k).avlInsert comp fuel x = some (false, (t.setKey x k).fresh x) ∧
      Runs comp listHead allowDups ((t.setKey x k).fresh x) born) ∨
    (¬(allowDups = false ∧ ∃ y ∈ born, comp k (t.key y) = 0) ∧
      ∃ t', (t.setKey x k).avlInsert comp fuel x = some (true, t') ∧
        t'.key = (t.setKey x k).key ∧ Runs comp listHead allowDups t' (born ++ [x])) := by
  obtain ⟨⟨gs, hsound⟩, hh, hd⟩ := h
  have hsound₁ := @Sound.setKey _ _ _ _ _ _ _ _ k hsound hx
  have hkey : (t.setKey x k).key x = k := by simp [AvlTree.setKey]
  have hkeys : ∀ y ∈ born, (t.setKey x k).key y = t.key y := by
    intro y hy
    have hne : y ≠ x := fun heq => hx (heq ▸ hy)
    simp [AvlTree.setKey, hne]
  have hhead₁ : x ≠ (t.setKey x k).listHead := by
    change x ≠ t.listHead
    rw [hh]
    exact hhead
  have hfuel₁ : born.length < fuel := by omega
  by_cases htaken : allowDups = false ∧ ∃ y ∈ born, comp k (t.key y) = 0
  · left
    obtain ⟨hfalse, y, hy, hzero⟩ := htaken
    refine ⟨⟨hfalse, y, hy, hzero⟩, ?_, ⟨gs, hsound₁.fresh hx⟩, hh, hd⟩
    refine avlInsert_taken hcomp hsound₁ hx hfuel₁ (hd.trans hfalse) ⟨y, hy, ?_⟩
    rw [hkey, hkeys y hy]
    exact hzero
  · right
    refine ⟨htaken, ?_⟩
    have hfree : (t.setKey x k).allowDups = true ∨
        ∀ y ∈ born, comp ((t.setKey x k).key x) ((t.setKey x k).key y) ≠ 0 := by
      rw [not_and_or] at htaken
      rcases htaken with hdups | hnone
      · left
        change t.allowDups = true
        rw [hd]
        simpa using hdups
      · right
        intro y hy hzero
        rw [hkey, hkeys y hy] at hzero
        exact hnone ⟨y, hy, hzero⟩
    obtain ⟨t', gs', hinsert, hsound', hsame⟩ :=
      avlInsert_free hcomp hsound₁ hx hhead₁ hfuel₁ hfree
    exact ⟨t', hinsert, hsame.1, ⟨gs', hsound'⟩, hsame.2.1.trans hh, hsame.2.2.trans hd⟩

theorem Runs.avlDelete {fuel : Nat} (hcomp : TotalPreorder comp)
    (h : Runs comp listHead allowDups t born) (hx : x ∈ born) (hfuel : born.length + 2 < fuel) :
    ∃ t', t.avlDelete fuel x = some t' ∧ t'.key = t.key ∧
      Runs comp listHead allowDups t' (born.erase x) := by
  obtain ⟨⟨gs, hsound⟩, hh, hd⟩ := h
  obtain ⟨t', gs', hdelete, hsound', hsame, -⟩ := avlDelete_spec hcomp hsound hx hfuel
  exact ⟨t', hdelete, hsame.1, ⟨gs', hsound'⟩, hsame.2.1.trans hh, hsame.2.2.trans hd⟩

/-- Every run keeps the tree in order. -/
theorem Reachable.runs (hcomp : TotalPreorder comp) (h : Reachable comp listHead allowDups t born) :
    Runs comp listHead allowDups t born := by
  induction h with
  | init knot key leader list => exact ⟨⟨[], sound_init ..⟩, rfl, rfl⟩
  | @insert t t' born fuel x k ok _ hx hhead hfuel hinsert ih =>
      rcases @Runs.avlInsert _ _ _ _ _ _ _ _ x k fuel hcomp ih hx hhead hfuel with
        ⟨-, hresult, hruns⟩ | ⟨-, t₂, hresult, -, hruns⟩
      · cases hresult.symm.trans hinsert
        exact hruns
      · cases hresult.symm.trans hinsert
        exact hruns
  | @delete t t' born fuel x _ hx hfuel hdelete ih =>
      obtain ⟨t₂, hresult, -, hruns⟩ := ih.avlDelete hcomp hx hfuel
      cases hresult.symm.trans hdelete
      exact hruns

/-! ## What a run keeps -/

omit [DecidableEq ν] in
/-- The list is sorted. -/
theorem Sound.sorted (hcomp : TotalPreorder comp) (h : Sound comp t gs born) :
    (members gs).Pairwise fun x y => comp (t.key x) (t.key y) ≤ 0 := by
  have hequal : ∀ p ∈ gs, ∀ y, y = p.1 ∨ y ∈ p.2 → comp (t.key y) (t.key p.1) = 0 :=
    fun p hp y hy => h.equal hp hy
  have hordered := h.ordered
  clear h
  induction gs with
  | nil => exact .nil
  | cons p gs ih =>
      obtain ⟨hp, hgs⟩ := List.pairwise_cons.mp hordered
      have hgroup : ∀ x y, x ∈ p.1 :: p.2 → y ∈ p.1 :: p.2 → comp (t.key x) (t.key y) = 0 := by
        intro x y hx hy
        have hxp := hequal p List.mem_cons_self x (List.mem_cons.mp hx)
        have hyp := hequal p List.mem_cons_self y (List.mem_cons.mp hy)
        exact (hcomp.zero_congr hxp).mpr (hcomp.zero_symm hyp)
      rw [members_cons, ← List.cons_append]
      refine List.pairwise_append.mpr ⟨?_, ?_, ?_⟩
      · apply List.pairwise_of_forall_mem_list
        intro x hx y hy
        exact Int.le_of_eq (hgroup x y hx hy)
      · exact ih (fun q hq => hequal q (List.mem_cons_of_mem p hq)) hgs
      · intro x hx y hy
        obtain ⟨q, hq, hyq⟩ := mem_members.mp hy
        have hxp := hequal p List.mem_cons_self x (List.mem_cons.mp hx)
        have hyz := hequal q (List.mem_cons_of_mem p hq) y hyq
        have hlt := (hcomp.neg_congr hxp).mpr (hp q hq)
        have hle := hcomp.lt_of_lt_of_le hlt (Int.le_of_eq (hcomp.zero_symm hyz))
        omega

omit [DecidableEq ν] in
/-- The node that `avl_find` returns, in terms of the groups. -/
theorem Sound.found (hcomp : TotalPreorder comp) (h : Sound comp t gs born) {fuel : Nat}
    (hfuel : born.length < fuel) (key : κ) :
    ∃ found, t.avlFind comp fuel key = some found ∧
      (∀ m, found = some m → m ∈ gs.map Prod.fst ∧ comp key (t.key m) = 0) ∧
      (found = none ↔ ∀ y ∈ born, comp key (t.key y) ≠ 0) := by
  refine ⟨_, h.avlFind hcomp hfuel key, ?_, ?_⟩
  · intro m hm
    have hzero : comp key (t.key m) = 0 := by simpa using List.find?_some hm
    refine ⟨?_, hzero⟩
    obtain ⟨p, hp, hmp⟩ := mem_members.mp (h.perm.mem_iff.mpr (List.mem_of_find?_eq_some hm))
    have hgroup := h.group p hp
    -- the first of the nodes with the key is the head of its group
    have hsame : born.filter (fun y => comp (t.key y) (t.key p.1) = 0)
        = born.filter (fun y => comp key (t.key y) = 0) := by
      apply List.filter_congr
      intro y _
      have hiff₁ := @TotalPreorder.zero_congr _ _ hcomp _ _ (t.key y) hzero
      have hiff₂ := @TotalPreorder.zero_congr _ _ hcomp _ _ (t.key y) (h.equal hp hmp)
      have hiff₃ : comp (t.key y) (t.key p.1) = 0 ↔ comp (t.key p.1) (t.key y) = 0 :=
        ⟨hcomp.zero_symm, hcomp.zero_symm⟩
      simp only [hiff₁, hiff₂, hiff₃]
    rw [← List.head?_filter, ← hsame, ← hgroup] at hm
    exact List.mem_map.mpr ⟨p, hp, Option.some.inj hm⟩
  · simp

/-- **The tree in every state of a run**: the leaders are a balanced search tree, the
list is the sorted sequence of the groups, the count is its length modulo `2 ^ 32`;
`avl_insert` refuses a node exactly when its key is taken, and leaves the tree then;
`avl_find` returns the leader with the key; `avl_delete` returns. -/
theorem reachable_tree (hcomp : TotalPreorder comp)
    (h : Reachable comp listHead allowDups t born) :
    (∃ gs, Sound comp t gs born ∧
      ((members gs).Pairwise fun x y => comp (t.key x) (t.key y) ≤ 0) ∧
      ∀ key fuel, born.length + 2 < fuel → ∃ found, t.avlFind comp fuel key = some found ∧
        (∀ m, found = some m → m ∈ gs.map Prod.fst ∧ comp key (t.key m) = 0) ∧
        (found = none ↔ ∀ y ∈ born, comp key (t.key y) ≠ 0)) ∧
    (∀ x k fuel, x ∉ born → x ≠ listHead → born.length + 2 < fuel →
      ∃ ok t', (t.setKey x k).avlInsert comp fuel x = some (ok, t') ∧
        (ok = false ↔ allowDups = false ∧ ∃ y ∈ born, comp k (t.key y) = 0) ∧
        (ok = false → t'.root = t.root ∧ t'.list = t.list ∧ t'.count = t.count ∧
          ∀ z ≠ x, t'.knot z = t.knot z ∧ t'.leader z = t.leader z ∧ t'.key z = t.key z)) ∧
    ∀ x ∈ born, ∀ fuel, born.length + 2 < fuel → ∃ t', t.avlDelete fuel x = some t' := by
  have hruns := h.runs hcomp
  refine ⟨?_, ?_, ?_⟩
  · obtain ⟨gs, hsound⟩ := hruns.sound
    refine ⟨gs, hsound, hsound.sorted hcomp, ?_⟩
    intro key fuel hfuel
    exact hsound.found hcomp (by omega) key
  · intro x k fuel hx hhead hfuel
    rcases @Runs.avlInsert _ _ _ _ _ _ _ _ x k fuel hcomp hruns hx hhead hfuel with
      ⟨htaken, hresult, -⟩ | ⟨hfree, t', hresult, -, -⟩
    · refine ⟨false, _, hresult, iff_of_true rfl htaken, fun _ => ⟨rfl, rfl, rfl, ?_⟩⟩
      intro z hz
      refine ⟨knot_modify_of_ne t.toSkeleton (fun _ => ⟨none, none, none, 0⟩) hz, ?_, ?_⟩
      · simp [AvlTree.fresh, AvlTree.setKey, hz]
      · simp [AvlTree.fresh, AvlTree.setKey, hz]
    · refine ⟨true, t', hresult, iff_of_false (by simp) hfree, ?_⟩
      intro hcontra
      cases hcontra
  · intro x hx fuel hfuel
    obtain ⟨t', hdelete, -⟩ := hruns.avlDelete hcomp hx hfuel
    exact ⟨t', hdelete⟩

/-- The comparator of numbers. -/
def natComp (a b : Nat) : Int := a - b

theorem natComp_preorder : TotalPreorder natComp where
  swap a b := by simp only [natComp]; omega
  trans a b c := by simp only [natComp]; omega

/-- Inserting the numbers from `1` on. -/
theorem reachable_count (allowDups : Bool) (n : Nat) :
    ∃ t : AvlTree Nat Nat, Reachable natComp 0 allowDups t (List.range' 1 n) ∧
      ∀ y ∈ List.range' 1 n, t.key y = y := by
  induction n with
  | zero => exact ⟨_, .init (fun _ => ⟨none, none, none, 0⟩) id (fun _ => true) ⟨some, some⟩, by simp⟩
  | succ n ih =>
      obtain ⟨t, ht, hkeys⟩ := ih
      have hfresh : n + 1 ∉ List.range' 1 n := by
        rw [List.mem_range'_1]
        omega
      have hfuel : (List.range' 1 n).length + 2 < n + 3 := by simp
      rw [List.range'_1_concat, Nat.add_comm 1 n]
      rcases @Runs.avlInsert _ _ _ _ _ _ _ _ (n + 1) (n + 1) (n + 3) natComp_preorder
        (ht.runs natComp_preorder) hfresh (by omega) hfuel with
        ⟨⟨-, y, hy, hzero⟩, -⟩ | ⟨-, t', hresult, hkey, -⟩
      · rw [hkeys y hy] at hzero
        rw [List.mem_range'_1] at hy
        simp only [natComp] at hzero
        omega
      · refine ⟨t', .insert ht hfresh (by omega) hfuel hresult, ?_⟩
        intro y hy
        rw [hkey]
        rcases List.mem_append.mp hy with hy | hy
        · have hne : y ≠ n + 1 := fun heq => hfresh (heq ▸ hy)
          simpa [AvlTree.setKey, hne] using hkeys y hy
        · rw [List.mem_singleton.mp hy]
          simp [AvlTree.setKey]

theorem reachable_tree_nat : TotalPreorder natComp ∧
    ∃ t : AvlTree Nat Nat, ∃ gs, Sound natComp t gs [1, 2, 3] := by
  obtain ⟨t, ht, -⟩ := reachable_count true 3
  obtain ⟨⟨gs, hsound, -⟩, -⟩ := reachable_tree natComp_preorder ht
  exact ⟨natComp_preorder, t, gs, hsound⟩

/-- The count is no length when there are `2 ^ 32` nodes. -/
theorem not_count_length : ¬∀ (t : AvlTree Nat Nat) (born xs : List Nat),
    Reachable natComp 0 true t born → Circle t.list 0 xs → (0 :: xs).Nodup →
      t.count = xs.length := by
  intro hclaim
  obtain ⟨t, ht, -⟩ := reachable_count true (2 ^ 32)
  obtain ⟨⟨gs, hsound⟩, hhead, -⟩ := ht.runs natComp_preorder
  have hcirc := hsound.circle
  have hnodup := hsound.nodup
  rw [hhead] at hcirc hnodup
  have hlength := hclaim t _ _ ht hcirc hnodup
  have hcount := hsound.count
  rw [hlength, hsound.perm.length_eq, List.length_range'] at hcount
  omega

end Libubox.Avl
