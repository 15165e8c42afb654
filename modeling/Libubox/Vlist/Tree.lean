import Libubox.Avl.Run
import Mathlib.Algebra.Group.Int.Defs

/-!
# Versioned trees

`vlist.c`: an AVL tree whose nodes carry the version that the tree had when they
were added.  `vlist_update` starts a version, `vlist_flush` deletes the nodes of
the other ones.

The calls of the `update` callback are a function's second result.
-/

namespace Libubox.Vlist

open Avl Circles

/-- The arguments of a call of `vlist_update_cb`. -/
structure UpdateCall (ν : Type*) where
  nodeNew : Option ν
  nodeOld : Option ν
  deriving DecidableEq

/-- `struct vlist_tree` with the versions of its nodes. -/
structure VlistTree (ν κ : Type*) where
  avl : AvlTree ν κ
  keepOld : Bool
  noDelete : Bool
  version : Int
  nodeVersion : ν → Int

variable {ν κ : Type*} [DecidableEq ν]

/-- `vlist_init`; the head's `keep_old` and `no_delete` are as the caller has set them. -/
def vlistInit (t : VlistTree ν κ) : VlistTree ν κ :=
  { t with
    avl := avlInit t.avl.listHead false t.avl.knot t.avl.key t.avl.leader t.avl.list
    version := 1 }

/-- `vlist_update`, while the `int` does not overflow. -/
def vlistUpdate (t : VlistTree ν κ) : Option (VlistTree ν κ) :=
  if t.version + 1 < 2 ^ 31 then some { t with version := t.version + 1 } else none

variable (comp : κ → κ → Int) (fuel : Nat)

/-- `vlist_delete`. -/
def vlistDelete (t : VlistTree ν κ) (node : ν) : Option (VlistTree ν κ × List (UpdateCall ν)) :=
  (if t.noDelete then some t.avl else t.avl.avlDelete fuel node).map fun avl =>
    ({ t with avl := avl }, [⟨none, some node⟩])

/-- `vlist_add`. -/
def vlistAdd (t : VlistTree ν κ) (node : ν) (key : κ) :
    Option (VlistTree ν κ × List (UpdateCall ν)) :=
  let t := { t with
    avl := t.avl.setKey node key
    nodeVersion := Function.update t.nodeVersion node t.version }
  (t.avl.avlFind comp fuel key).bind fun anode =>
    match anode with
    | some oldNode =>
        if t.keepOld || t.noDelete then
          some ({ t with nodeVersion := Function.update t.nodeVersion oldNode t.version },
            [⟨some node, some oldNode⟩])
        else
          (t.avl.avlDelete fuel oldNode).bind fun avl =>
            (avl.avlInsert comp fuel node).map fun r =>
              ({ t with avl := r.2 }, [⟨some node, some oldNode⟩])
    | none =>
        (t.avl.avlInsert comp fuel node).map fun r => ({ t with avl := r.2 }, [⟨some node, none⟩])

/-- `vlist_flush` keeps the node. -/
def VlistTree.keeps (t : VlistTree ν κ) (node : ν) : Prop :=
  (t.nodeVersion node = t.version ∨ t.nodeVersion node = -1) ∧ t.version ≠ -1

instance (t : VlistTree ν κ) (node : ν) : Decidable (t.keeps node) := by
  unfold VlistTree.keeps
  infer_instance

/-- The loop of `vlist_flush`, `avl_for_each_element_safe`: `tmp` is the node behind
`node`.  The loop ends where the node in front is the last one of the list. -/
def flushLoop : Nat → VlistTree ν κ → ν → ν → Option (VlistTree ν κ × List (UpdateCall ν))
  | 0, _, _, _ => none
  | n + 1, t, node, tmp =>
      (t.avl.list.prev node).bind fun prev =>
        (t.avl.list.prev t.avl.listHead).bind fun last =>
          if prev = last then some (t, [])
          else
            (if t.keeps node then some (t, []) else vlistDelete fuel t node).bind fun (t, calls) =>
              (t.avl.list.next tmp).bind fun next =>
                (flushLoop n t tmp next).map fun (t, rest) => (t, calls ++ rest)

/-- `vlist_flush`. -/
def vlistFlush (t : VlistTree ν κ) : Option (VlistTree ν κ × List (UpdateCall ν)) :=
  (t.avl.list.next t.avl.listHead).bind fun node =>
    (t.avl.list.next node).bind fun tmp => flushLoop fuel fuel t node tmp

/-- `vlist_flush_all`. -/
def vlistFlushAll (t : VlistTree ν κ) : Option (VlistTree ν κ × List (UpdateCall ν)) :=
  vlistFlush fuel { t with version := -1 }

variable {comp : κ → κ → Int} {fuel : Nat} {t : VlistTree ν κ} {avl : AvlTree ν κ}
  {xs : List ν} {x : ν} {k : κ}

/-! ## The nodes of a tree -/

/-- The tree is in order, has the nodes `xs` in its list, and no key twice. -/
structure Has (comp : κ → κ → Int) (avl : AvlTree ν κ) (xs : List ν) : Prop where
  sound : ∃ gs born, Sound comp avl gs born ∧ members gs = xs
  single : avl.allowDups = false

namespace Has

omit [DecidableEq ν] in
theorem nodup (h : Has comp avl xs) : (avl.listHead :: xs).Nodup := by
  obtain ⟨gs, born, hsound, rfl⟩ := h.sound
  exact hsound.nodup

omit [DecidableEq ν] in
theorem circle (h : Has comp avl xs) : Circles.Circle avl.list avl.listHead xs := by
  obtain ⟨gs, born, hsound, rfl⟩ := h.sound
  exact hsound.circle

omit [DecidableEq ν] in
/-- Two nodes in the tree do not have the same key. -/
theorem key_inj (hcomp : TotalPreorder comp) (h : Has comp avl xs) {y : ν} (hx : x ∈ xs)
    (hy : y ∈ xs) (hkey : comp (avl.key x) (avl.key y) = 0) : x = y := by
  obtain ⟨gs, born, hsound, rfl⟩ := h.sound
  obtain ⟨p, hp, hxp⟩ := mem_members.mp hx
  obtain ⟨q, hq, hyq⟩ := mem_members.mp hy
  have hnone := hsound.unique h.single
  rw [hnone p hp] at hxp
  rw [hnone q hq] at hyq
  obtain rfl : x = p.1 := hxp.resolve_right List.not_mem_nil
  obtain rfl : y = q.1 := hyq.resolve_right List.not_mem_nil
  have hforth : gs.Pairwise fun a b => comp (avl.key a.1) (avl.key b.1) = 0 → a.1 = b.1 := by
    refine hsound.ordered.imp fun hlt hzero => ?_
    omega
  have hback : gs.Pairwise fun a b => comp (avl.key b.1) (avl.key a.1) = 0 → b.1 = a.1 := by
    refine hsound.ordered.imp fun hlt hzero => ?_
    have := hcomp.zero_symm hzero
    omega
  exact List.Pairwise.forall_of_forall_of_flip (fun _ _ _ => rfl) hforth hback hp hq hkey

omit [DecidableEq ν] in
theorem find (hcomp : TotalPreorder comp) (h : Has comp avl xs) (hfuel : xs.length < fuel) (k : κ) :
    (avl.avlFind comp fuel k = some none ∧ ∀ y ∈ xs, comp k (avl.key y) ≠ 0) ∨
      ∃ y ∈ xs, avl.avlFind comp fuel k = some (some y) ∧ comp k (avl.key y) = 0 := by
  obtain ⟨gs, born, hsound, rfl⟩ := h.sound
  rw [hsound.perm.length_eq] at hfuel
  have hfind := hsound.avlFind hcomp hfuel k
  cases hfound : born.find? fun y => comp k (avl.key y) = 0 with
  | none =>
      left
      refine ⟨hfind.trans (congrArg some hfound), fun y hy => ?_⟩
      simpa using List.find?_eq_none.mp hfound y (hsound.perm.mem_iff.mp hy)
  | some y =>
      right
      refine ⟨y, hsound.perm.mem_iff.mpr (List.mem_of_find?_eq_some hfound),
        hfind.trans (congrArg some hfound), ?_⟩
      simpa using List.find?_some hfound

theorem setKey (h : Has comp avl xs) (hx : x ∉ xs) : Has comp (avl.setKey x k) xs := by
  obtain ⟨gs, born, hsound, rfl⟩ := h.sound
  have hborn : x ∉ born := fun hmem => hx (hsound.perm.mem_iff.mpr hmem)
  exact ⟨⟨gs, born, hsound.setKey hborn, rfl⟩, h.single⟩

theorem delete (hcomp : TotalPreorder comp) (h : Has comp avl xs) (hx : x ∈ xs)
    (hfuel : xs.length + 2 < fuel) :
    ∃ avl', avl.avlDelete fuel x = some avl' ∧ Has comp avl' (xs.erase x) ∧ SameHead avl avl' := by
  obtain ⟨gs, born, hsound, rfl⟩ := h.sound
  rw [hsound.perm.length_eq] at hfuel
  obtain ⟨avl', gs', hdelete, hsound', hsame, hmembers⟩ :=
    avlDelete_spec hcomp hsound (hsound.perm.mem_iff.mp hx) hfuel
  exact ⟨avl', hdelete, ⟨⟨gs', _, hsound', hmembers⟩, hsame.2.2.trans h.single⟩, hsame⟩

theorem insert (hcomp : TotalPreorder comp) (h : Has comp avl xs) (hx : x ∉ avl.listHead :: xs)
    (hfree : ∀ y ∈ xs, comp (avl.key x) (avl.key y) ≠ 0) (hfuel : xs.length + 2 < fuel) :
    ∃ avl' xs', avl.avlInsert comp fuel x = some (true, avl') ∧ Has comp avl' xs' ∧
      xs'.Perm (x :: xs) ∧ SameHead avl avl' := by
  obtain ⟨gs, born, hsound, rfl⟩ := h.sound
  rw [hsound.perm.length_eq] at hfuel
  obtain ⟨hhead, hx⟩ := not_or.mp (mt List.mem_cons.mpr hx)
  have hborn : x ∉ born := fun hmem => hx (hsound.perm.mem_iff.mpr hmem)
  obtain ⟨avl', gs', hinsert, hsound', hsame⟩ :=
    avlInsert_free hcomp hsound hborn hhead (by omega : born.length < fuel)
      (.inr fun y hy => hfree y (hsound.perm.mem_iff.mpr hy))
  refine ⟨avl', members gs', hinsert, ⟨⟨gs', _, hsound', rfl⟩, hsame.2.2.trans h.single⟩, ?_, hsame⟩
  exact hsound'.perm.trans ((List.perm_append_singleton x born).trans (hsound.perm.symm.cons x))

end Has

/-! ## What the functions do -/

theorem vlistDelete_spec (hcomp : TotalPreorder comp) (hno : t.noDelete = false)
    (h : Has comp t.avl xs) (hx : x ∈ xs) (hfuel : xs.length + 2 < fuel) :
    ∃ avl, vlistDelete fuel t x = some ({ t with avl := avl }, [⟨none, some x⟩]) ∧
      Has comp avl (xs.erase x) ∧ SameHead t.avl avl := by
  obtain ⟨avl, hdelete, hhas, hsame⟩ := h.delete hcomp hx hfuel
  refine ⟨avl, ?_, hhas, hsame⟩
  rw [vlistDelete, if_neg (by simp [hno]), hdelete]
  rfl

/-- The loop of `vlist_flush`, in front of the nodes `rest`. -/
theorem flushLoop_spec {done rest : List ν} {n : Nat} {node tmp : ν} (hcomp : TotalPreorder comp)
    (hno : t.noDelete = false) (h : Has comp t.avl (done ++ rest))
    (hnode : (rest ++ [t.avl.listHead]).head? = some node) (htmp : t.avl.list.next node = some tmp)
    (hfuel : (done ++ rest).length + 2 < fuel) (hn : rest.length < n) :
    ∃ avl, flushLoop fuel n t node tmp = some ({ t with avl := avl },
        (rest.filter fun y => ¬t.keeps y).map fun y => ⟨none, some y⟩) ∧
      Has comp avl (done ++ rest.filter fun y => t.keeps y) ∧ SameHead t.avl avl := by
  induction rest generalizing done t n node tmp with
  | nil =>
      obtain ⟨n, rfl⟩ := Nat.exists_eq_succ_of_ne_zero (Nat.ne_of_gt hn)
      cases hnode
      have hprev := h.circle.prev_head
      rw [List.getLast?_eq_some_getLast (List.cons_ne_nil _ _)] at hprev
      refine ⟨t.avl, ?_, h, rfl, rfl, rfl⟩
      rw [flushLoop, hprev, Option.bind_some, Option.bind_some, if_pos rfl]
      rfl
  | cons y rest ih =>
      obtain ⟨n, rfl⟩ := Nat.exists_eq_succ_of_ne_zero (Nat.ne_of_gt (Nat.zero_lt_of_lt hn))
      cases hnode
      have hnodup := h.nodup
      have hcirc := h.circle
      obtain ⟨prev, last, hprev, hlast, hne⟩ := hcirc.exists_prev hnodup
      have hbehind : t.avl.list.next y = (rest ++ [t.avl.listHead]).head? := hcirc.next_mem
      rw [htmp] at hbehind
      have hmem : tmp ∈ t.avl.listHead :: rest := by
        have := List.mem_of_head? hbehind.symm
        simpa [or_comm] using this
      rw [List.length_append, List.length_cons] at hfuel
      rw [List.length_cons] at hn
      rw [flushLoop, hprev, Option.bind_some, hlast, Option.bind_some, if_neg hne]
      by_cases hkeeps : t.keeps y
      · obtain ⟨next, hnext⟩ : ∃ n, t.avl.list.next tmp = some n := by
          refine hcirc.exists_next ?_
          simp only [List.mem_cons, List.mem_append] at hmem ⊢
          tauto
        have hlist : done ++ y :: rest = (done ++ [y]) ++ rest := by simp
        obtain ⟨avl, hloop, hhas, hsame⟩ := ih hno (hlist ▸ h) hbehind.symm hnext
          (by simp; omega) (Nat.lt_of_succ_lt_succ hn)
        refine ⟨avl, ?_, ?_, hsame⟩
        · rw [if_pos hkeeps, Option.bind_some]
          show (t.avl.list.next tmp).bind _ = _
          rw [hnext, Option.bind_some, hloop, List.filter_cons_of_neg (by simpa using hkeeps)]
          rfl
        · rw [List.filter_cons_of_pos (by simpa using hkeeps)]
          simpa using hhas
      · have hdone : y ∉ done := by
          intro hmem
          have := (List.nodup_append.mp (List.nodup_cons.mp hnodup).2).2.2 y hmem y
          exact this List.mem_cons_self rfl
        have hlen : (done ++ y :: rest).length + 2 < fuel := by simp; omega
        obtain ⟨avl₁, hdelete, hhas₁, hsame₁⟩ := vlistDelete_spec hcomp hno h
          (List.mem_append_right done List.mem_cons_self) hlen
        rw [List.erase_append_right _ hdone, List.erase_cons_head] at hhas₁
        obtain ⟨next, hnext⟩ : ∃ n, avl₁.list.next tmp = some n := by
          refine hhas₁.circle.exists_next ?_
          rw [hsame₁.2.1]
          simp only [List.mem_cons, List.mem_append] at hmem ⊢
          tauto
        obtain ⟨avl, hloop, hhas, hsame⟩ := @ih { t with avl := avl₁ } done n tmp next hno hhas₁
          (by rw [hsame₁.2.1]; exact hbehind.symm) hnext (by simp; omega)
          (Nat.lt_of_succ_lt_succ hn)
        refine ⟨avl, ?_, ?_, hsame.1.trans hsame₁.1, hsame.2.1.trans hsame₁.2.1,
          hsame.2.2.trans hsame₁.2.2⟩
        · rw [if_neg hkeeps, hdelete, Option.bind_some]
          show (avl₁.list.next tmp).bind _ = _
          rw [hnext, Option.bind_some, hloop, List.filter_cons_of_pos (by simpa using hkeeps)]
          rfl
        · rw [List.filter_cons_of_neg (by simpa using hkeeps)]
          exact hhas

/-- **`vlist_flush`** deletes the nodes it does not keep, and calls `update` for each. -/
theorem vlistFlush_spec (hcomp : TotalPreorder comp) (hno : t.noDelete = false)
    (h : Has comp t.avl xs) (hfuel : xs.length + 2 < fuel) :
    ∃ avl, vlistFlush fuel t = some ({ t with avl := avl },
        (xs.filter fun y => ¬t.keeps y).map fun y => ⟨none, some y⟩) ∧
      Has comp avl (xs.filter fun y => t.keeps y) ∧ SameHead t.avl avl := by
  have hcirc := h.circle
  obtain ⟨node, hnode⟩ := hcirc.exists_next List.mem_cons_self
  have hfirst := hcirc.next_head
  rw [hnode] at hfirst
  have hmem : node ∈ t.avl.listHead :: xs := by
    have := List.mem_of_head? hfirst.symm
    simpa [or_comm] using this
  obtain ⟨tmp, htmp⟩ := hcirc.exists_next hmem
  rw [vlistFlush, hnode, Option.bind_some, htmp, Option.bind_some]
  exact @flushLoop_spec _ _ _ comp fuel t [] xs fuel node tmp hcomp hno h hfirst.symm htmp hfuel
    (by omega)

/-- A node with the key `k` was added to the nodes `xs`: there is one then, with the
version of the tree, and the nodes with other keys are as before. -/
structure Added (comp : κ → κ → Int) (k : κ) (t t' : VlistTree ν κ) (xs xs' : List ν) : Prop where
  has : Has comp t'.avl xs'
  head : t'.avl.listHead = t.avl.listHead
  noDelete : t'.noDelete = t.noDelete
  version : t'.version = t.version
  length : xs'.length ≤ xs.length + 1
  taken : ∃ y ∈ xs', comp k (t'.avl.key y) = 0
  current : ∀ y ∈ xs', comp k (t'.avl.key y) = 0 → t'.nodeVersion y = t.version
  others : ∀ y, y ∈ xs' ∧ comp k (t'.avl.key y) ≠ 0 ↔ y ∈ xs ∧ comp k (t.avl.key y) ≠ 0
  kept : ∀ y ∈ xs, comp k (t.avl.key y) ≠ 0 →
    t'.avl.key y = t.avl.key y ∧ t'.nodeVersion y = t.nodeVersion y

/-- Inserting, when the nodes with other keys are left. -/
theorem avlInsert_added {xs₁ : List ν} (hcomp : TotalPreorder comp) (h : Has comp avl xs₁)
    (hhead : avl.listHead = t.avl.listHead) (hkey : avl.key = Function.update t.avl.key x k)
    (hx : x ∉ t.avl.listHead :: xs)
    (hrest : ∀ y, y ∈ xs₁ ↔ y ∈ xs ∧ comp k (t.avl.key y) ≠ 0) (hlength : xs₁.length ≤ xs.length)
    (hfuel : xs.length + 2 < fuel) :
    ∃ avl' xs', avl.avlInsert comp fuel x = some (true, avl') ∧
      Added comp k t { t with
        avl := avl', nodeVersion := Function.update t.nodeVersion x t.version } xs xs' := by
  have hne : ∀ y ∈ xs, y ≠ x := fun y hy heq => hx (heq ▸ List.mem_cons_of_mem _ hy)
  have hkeys : ∀ y ∈ xs, avl.key y = t.avl.key y := by
    intro y hy
    rw [hkey, Function.update_of_ne (hne y hy)]
  have hkeyx : avl.key x = k := by rw [hkey, Function.update_self]
  have hfree : ∀ y ∈ xs₁, comp (avl.key x) (avl.key y) ≠ 0 := by
    intro y hy
    obtain ⟨hmem, hzero⟩ := (hrest y).mp hy
    rwa [hkeyx, hkeys y hmem]
  have hnew : x ∉ avl.listHead :: xs₁ := by
    intro hmem
    rw [hhead] at hmem
    rcases List.mem_cons.mp hmem with heq | hmem
    · exact hx (heq ▸ List.mem_cons_self)
    · exact hne x ((hrest x).mp hmem).1 rfl
  have hlen : xs₁.length + 2 < fuel := by omega
  obtain ⟨avl', xs', hinsert, hhas, hperm, hsame⟩ := h.insert hcomp hnew hfree hlen
  have hmem : ∀ y, y ∈ xs' ↔ y = x ∨ y ∈ xs₁ := fun y => hperm.mem_iff.trans List.mem_cons
  have hzero : comp k (avl'.key x) = 0 := by
    rw [hsame.1, hkeyx]
    exact hcomp.refl k
  refine ⟨avl', xs', hinsert, hhas, hsame.2.1.trans hhead, rfl, rfl, ?_,
    ⟨x, (hmem x).mpr (.inl rfl), hzero⟩, ?_, ?_, ?_⟩
  · rw [hperm.length_eq, List.length_cons]
    omega
  · intro y hy hyk
    rcases (hmem y).mp hy with rfl | hy
    · exact Function.update_self ..
    · obtain ⟨hyxs, hyne⟩ := (hrest y).mp hy
      rw [hsame.1, hkeys y hyxs] at hyk
      exact absurd hyk hyne
  · intro y
    rw [hmem y]
    constructor
    · rintro ⟨rfl | hy, hyk⟩
      · exact absurd hzero hyk
      · exact (hrest y).mp hy
    · intro hy
      refine ⟨.inr ((hrest y).mpr hy), ?_⟩
      rw [hsame.1, hkeys y hy.1]
      exact hy.2
  · intro y hy _
    exact ⟨by rw [hsame.1, hkeys y hy], Function.update_of_ne (hne y hy) ..⟩

/-- **`vlist_add`** returns, on a tree from which it may delete. -/
theorem vlistAdd_spec (hcomp : TotalPreorder comp) (hno : t.noDelete = false)
    (h : Has comp t.avl xs) (hx : x ∉ t.avl.listHead :: xs) (hfuel : xs.length + 2 < fuel) (k : κ) :
    ∃ t' xs' calls, vlistAdd comp fuel t x k = some (t', calls) ∧ Added comp k t t' xs xs' := by
  have hmem : x ∉ xs := fun hmem => hx (List.mem_cons_of_mem _ hmem)
  have hne : ∀ y ∈ xs, y ≠ x := fun y hy heq => hmem (heq ▸ hy)
  have hset : Has comp (t.avl.setKey x k) xs := h.setKey hmem
  have hkeys : ∀ y ∈ xs, (t.avl.setKey x k).key y = t.avl.key y := fun y hy =>
    Function.update_of_ne (hne y hy) ..
  rw [vlistAdd]
  rcases hset.find hcomp (by omega : xs.length < fuel) k with ⟨hfind, hnone⟩ | ⟨o, ho, hfind, hzero⟩
  · have hrest : ∀ y, y ∈ xs ↔ y ∈ xs ∧ comp k (t.avl.key y) ≠ 0 := by
      intro y
      refine ⟨fun hy => ⟨hy, ?_⟩, And.left⟩
      rw [← hkeys y hy]
      exact hnone y hy
    obtain ⟨avl', xs', hinsert, hadded⟩ :=
      avlInsert_added hcomp hset rfl rfl hx hrest le_rfl hfuel
    refine ⟨_, xs', [⟨some x, none⟩], ?_, hadded⟩
    simp only [hfind, Option.bind_some, hinsert]
    rfl
  · -- `o` is the only node with the key
    rw [hkeys o ho] at hzero
    have honly : ∀ y, y ≠ o ∧ y ∈ xs ↔ y ∈ xs ∧ comp k (t.avl.key y) ≠ 0 := by
      intro y
      rw [and_comm]
      refine and_congr_right fun hy => not_congr ⟨fun heq => heq ▸ hzero, fun hyk => ?_⟩
      exact (h.key_inj hcomp ho hy ((hcomp.zero_congr hzero).mp hyk)).symm
    have htest : (t.keepOld || t.noDelete) = t.keepOld := by rw [hno, Bool.or_false]
    simp only [hfind, Option.bind_some, htest]
    by_cases hkeep : t.keepOld = true
    · rw [if_pos hkeep]
      refine ⟨_, xs, _, rfl, hset, rfl, rfl, rfl, Nat.le_succ _, ⟨o, ho, ?_⟩, ?_, ?_, ?_⟩
      · rwa [hkeys o ho]
      · intro y hy hyk
        rw [hkeys y hy] at hyk
        by_cases hyo : y = o
        · rw [hyo]
          exact Function.update_self ..
        · exact absurd hyk ((honly y).mp ⟨hyo, hy⟩).2
      · intro y
        exact and_congr_right fun hy => by rw [hkeys y hy]
      · intro y hy hyk
        refine ⟨hkeys y hy, ?_⟩
        have hyo : y ≠ o := ((honly y).mpr ⟨hy, hyk⟩).1
        exact (Function.update_of_ne hyo ..).trans (Function.update_of_ne (hne y hy) ..)
    · rw [if_neg hkeep]
      obtain ⟨avl', hdelete, hhas, hsame⟩ := hset.delete hcomp ho hfuel
      have hrest : ∀ y, y ∈ xs.erase o ↔ y ∈ xs ∧ comp k (t.avl.key y) ≠ 0 := by
        intro y
        rw [(List.nodup_cons.mp h.nodup).2.mem_erase_iff]
        exact honly y
      obtain ⟨avl'', xs', hinsert, hadded⟩ :=
        avlInsert_added hcomp hhas hsame.2.1 hsame.1 hx hrest (List.length_erase_le) hfuel
      refine ⟨_, xs', [⟨some x, some o⟩], ?_, hadded⟩
      rw [hdelete, Option.bind_some, hinsert]
      rfl

end Libubox.Vlist
