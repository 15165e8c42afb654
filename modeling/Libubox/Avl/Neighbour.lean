import Libubox.Avl.Run

/-!
# Neighbours of a key

`avl_find_lessequal` and `avl_find_greaterequal`.  From the node where
`avl_find_rec` stops they go along the list, first to a node on the right side of the
key and then back towards it (`neighbour_spec`); the list is sorted, so it does not
matter for the result where they start.
-/

namespace Libubox.Avl

open Trees Circles

variable {ν κ : Type*}

/-! ## The source -/

namespace AvlTree

variable (comp : κ → κ → Int) (t : AvlTree ν κ) (key : κ)

/-- The first loop: a step while `goes` says so of the comparison; `none` for the null
pointer at the end of the list. -/
def searchBack (step : ν → Option ν) (atEnd : ν → Bool) (goes : Int → Bool) :
    Nat → ν → Int → Option (Option (ν × Int))
  | 0, _, _ => none
  | fuel + 1, node, diff =>
      if goes diff then
        if atEnd node then some none
        else (step node).bind fun node =>
          searchBack step atEnd goes fuel node (comp key (t.key node))
      else some (some (node, diff))

/-- The second loop: `next` is the candidate, and `node` the one before it. -/
def searchOn (step : ν → Option ν) (atEnd : ν → Bool) (goes : Int → Bool) :
    Nat → ν → ν → Int → Option ν
  | 0, _, _, _ => none
  | fuel + 1, node, next, diff =>
      if goes diff then
        if atEnd next then some next
        else (step next).bind fun next' =>
          searchOn step atEnd goes fuel next next' (comp key (t.key next'))
      else some node

/-- What both searches do, in the directions `back` and `on`. -/
def avlFindNeighbour (fuel : Nat) (back on : ν → Option ν) (atBack atOn : ν → Bool)
    (goesBack goesOn : Int → Bool) : Option (Option ν) :=
  match t.root with
  | none => some none
  | some root =>
      (t.avlFindRec comp key fuel root).bind fun (node, diff) =>
        (searchBack comp t key back atBack goesBack fuel node diff).bind fun
          | none => some none
          | some (node, diff) => (searchOn comp t key on atOn goesOn fuel node node diff).map some

variable [DecidableEq ν]

/-- `list_is_first` in the list of the tree. -/
def isFirst (t : AvlTree ν κ) (node : ν) : Bool := t.list.prev node = some t.listHead

/-- `avl_find_lessequal`. -/
def avlFindLessequal (fuel : Nat) (t : AvlTree ν κ) (key : κ) : Option (Option ν) :=
  avlFindNeighbour comp t key fuel t.list.prev t.list.next t.isFirst t.isLast
    (fun diff => diff < 0) fun diff => 0 ≤ diff

/-- `avl_find_greaterequal`. -/
def avlFindGreaterequal (fuel : Nat) (t : AvlTree ν κ) (key : κ) : Option (Option ν) :=
  avlFindNeighbour comp t key fuel t.list.next t.list.prev t.isLast t.isFirst
    (fun diff => 0 < diff) fun diff => diff ≤ 0

end AvlTree

/-! ## Going along the list -/

/-- The pointers lead along some nodes to the end of the list. -/
def Threads (step : ν → Option ν) (atEnd : ν → Bool) : List ν → Prop
  | [] => True
  | [x] => atEnd x = true
  | x :: y :: ys => atEnd x = false ∧ step x = some y ∧ Threads step atEnd (y :: ys)

variable {comp : κ → κ → Int} {t : AvlTree ν κ} {key : κ} {step : ν → Option ν}
  {atEnd : ν → Bool} {goes : Int → Bool} {x node : ν} {xs ys : List ν} {fuel : Nat}

theorem Threads.suffix (h : Threads step atEnd (xs ++ ys)) : Threads step atEnd ys := by
  induction xs with
  | nil => exact h
  | cons x xs ih =>
      apply ih
      cases hrest : xs ++ ys with
      | nil => trivial
      | cons y zs =>
          rw [List.cons_append, hrest] at h
          exact h.2.2

theorem searchBack_spec (hthreads : Threads step atEnd (x :: xs)) (hfuel : xs.length < fuel) :
    AvlTree.searchBack comp t key step atEnd goes fuel x (comp key (t.key x)) =
      some (((x :: xs).find? fun y => !goes (comp key (t.key y))).map
        fun y => (y, comp key (t.key y))) := by
  induction xs generalizing x fuel with
  | nil =>
      obtain ⟨fuel, rfl⟩ := Nat.exists_eq_succ_of_ne_zero (Nat.ne_of_gt hfuel)
      have hend : atEnd x = true := hthreads
      rw [AvlTree.searchBack, hend]
      cases hgoes : goes (comp key (t.key x)) with
      | true => simp [hgoes]
      | false => simp [hgoes]
  | cons y xs ih =>
      obtain ⟨fuel, rfl⟩ := Nat.exists_eq_succ_of_ne_zero (Nat.ne_of_gt (Nat.zero_lt_of_lt hfuel))
      obtain ⟨hend, hstep, hrest⟩ := hthreads
      rw [AvlTree.searchBack, hend, hstep, Option.bind_some,
        ih hrest (Nat.lt_of_succ_lt_succ hfuel)]
      cases hgoes : goes (comp key (t.key x)) with
      | true => simp [hgoes]
      | false => simp [hgoes]

theorem searchOn_spec (hthreads : Threads step atEnd (x :: xs)) (hfuel : xs.length < fuel) :
    AvlTree.searchOn comp t key step atEnd goes fuel node x (comp key (t.key x)) =
      some (((x :: xs).takeWhile fun y => goes (comp key (t.key y))).getLastD node) := by
  induction xs generalizing x node fuel with
  | nil =>
      obtain ⟨fuel, rfl⟩ := Nat.exists_eq_succ_of_ne_zero (Nat.ne_of_gt hfuel)
      have hend : atEnd x = true := hthreads
      rw [AvlTree.searchOn, hend]
      cases hgoes : goes (comp key (t.key x)) with
      | true => simp [hgoes]
      | false => simp [hgoes]
  | cons y xs ih =>
      obtain ⟨fuel, rfl⟩ := Nat.exists_eq_succ_of_ne_zero (Nat.ne_of_gt (Nat.zero_lt_of_lt hfuel))
      obtain ⟨hend, hstep, hrest⟩ := hthreads
      rw [AvlTree.searchOn, hend, hstep, Option.bind_some,
        ih hrest (Nat.lt_of_succ_lt_succ hfuel)]
      cases hgoes : goes (comp key (t.key x)) with
      | true =>
          have htake : ((x :: y :: xs).takeWhile fun y => goes (comp key (t.key y))) =
              x :: ((y :: xs).takeWhile fun y => goes (comp key (t.key y))) :=
            List.takeWhile_cons_of_pos hgoes
          rw [htake, List.getLastD_cons]
          rfl
      | false => simp [hgoes]

/-- In a list sorted by a key the nodes on one side of it come first. -/
theorem filter_eq_takeWhile {p : ν → Bool} (h : xs.Pairwise fun a b => p b = true → p a = true) :
    xs.filter p = xs.takeWhile p := by
  induction xs with
  | nil => rfl
  | cons x xs ih =>
      obtain ⟨hx, hxs⟩ := List.pairwise_cons.mp h
      cases hp : p x with
      | true => rw [List.filter_cons_of_pos hp, List.takeWhile_cons_of_pos hp, ih hxs]
      | false =>
          have hnone : ∀ y ∈ xs, ¬p y = true := by
            intro y hy hpy
            rw [hx y hy hpy] at hp
            cases hp
          rw [List.filter_cons_of_neg (by simp [hp]), List.takeWhile_cons_of_neg (by simp [hp]),
            List.filter_eq_nil_iff.mpr hnone]

/-- **Both searches** from any node of the list: the last node on the side of the key to
which `goesOn` goes, in its direction. -/
theorem neighbour_spec {back on : ν → Option ν} {atBack atOn : ν → Bool}
    {goesBack goesOn : Int → Bool} (hback : Threads back atBack xs.reverse)
    (hon : Threads on atOn xs) (hx : x ∈ xs) (hfuel : xs.length < fuel)
    (hgoes : ∀ diff, goesBack diff = !goesOn diff)
    (hsorted : xs.Pairwise fun a b => goesOn (comp key (t.key b)) = true →
      goesOn (comp key (t.key a)) = true) :
    ((AvlTree.searchBack comp t key back atBack goesBack fuel x (comp key (t.key x))).bind fun
      | none => some none
      | some (node, diff) =>
          (AvlTree.searchOn comp t key on atOn goesOn fuel node node diff).map some) =
        some (xs.filter fun y => goesOn (comp key (t.key y))).getLast? := by
  obtain ⟨as, bs, rfl⟩ := List.append_of_mem hx
  have hback : Threads back atBack (x :: as.reverse) := by
    have hrev : (as ++ x :: bs).reverse = bs.reverse ++ x :: as.reverse := by simp
    rw [hrev] at hback
    exact hback.suffix
  rw [searchBack_spec hback (by simp at hfuel ⊢; omega), Option.bind_some]
  simp only [hgoes, Bool.not_not]
  cases hfind : (x :: as.reverse).find? fun y => goesOn (comp key (t.key y)) with
  | none =>
      have hnone := List.find?_eq_none.mp hfind
      have hfilter : (as ++ x :: bs).filter (fun y => goesOn (comp key (t.key y))) = [] := by
        refine List.filter_eq_nil_iff.mpr fun y hy => ?_
        rcases List.mem_append.mp hy with hy | hy
        · exact hnone y (List.mem_cons_of_mem x (List.mem_reverse.mpr hy))
        · rcases List.mem_cons.mp hy with rfl | hy
          · exact hnone y List.mem_cons_self
          · intro hyes
            have hxb := (List.pairwise_append.mp hsorted).2.1
            exact hnone x List.mem_cons_self ((List.pairwise_cons.mp hxb).1 y hy hyes)
      rw [hfilter]
      rfl
  | some y =>
      obtain ⟨hyes, us, vs, hsplit, -⟩ := List.find?_eq_some_iff_append.mp hfind
      have hlist : as ++ x :: bs = vs.reverse ++ y :: (us.reverse ++ bs) := by
        have hrev := congrArg List.reverse hsplit
        rw [List.reverse_cons, List.reverse_reverse, List.reverse_append, List.reverse_cons] at hrev
        calc as ++ x :: bs = (as ++ [x]) ++ bs := by simp
          _ = vs.reverse ++ y :: (us.reverse ++ bs) := by rw [hrev]; simp
      rw [hlist] at hon hsorted hfuel ⊢
      have hvs : ∀ z ∈ vs.reverse, goesOn (comp key (t.key z)) = true := fun z hz =>
        (List.pairwise_append.mp hsorted).2.2 z hz y List.mem_cons_self hyes
      have htake : ((y :: (us.reverse ++ bs)).takeWhile fun z => goesOn (comp key (t.key z))) =
          y :: ((us.reverse ++ bs).takeWhile fun z => goesOn (comp key (t.key z))) :=
        List.takeWhile_cons_of_pos hyes
      rw [filter_eq_takeWhile hsorted, List.takeWhile_append_of_pos hvs, htake]
      simp only [Option.map_some]
      rw [searchOn_spec hon.suffix (by simp at hfuel ⊢; omega), htake, Option.map_some,
        List.getLast?_append, List.getLast?_cons, List.getLastD_cons, Option.some_or,
        List.getLastD_eq_getLast?]

variable {gs : List (ν × List ν)} {born : List ν}

/-- A search from the node where `avl_find_rec` stops. -/
theorem Sound.avlFindNeighbour (hcomp : TotalPreorder comp) (h : Sound comp t gs born)
    {back on : ν → Option ν} {atBack atOn : ν → Bool} {goesBack goesOn : Int → Bool}
    (hback : Threads back atBack xs.reverse) (hon : Threads on atOn xs)
    (hxs : ∀ x, x ∈ xs ↔ x ∈ members gs) (hlength : xs.length = born.length)
    (hfuel : born.length < fuel) (hgoes : ∀ diff, goesBack diff = !goesOn diff)
    (hsorted : xs.Pairwise fun a b => goesOn (comp key (t.key b)) = true →
      goesOn (comp key (t.key a)) = true) :
    t.avlFindNeighbour comp key fuel back on atBack atOn goesBack goesOn =
      some (xs.filter fun y => goesOn (comp key (t.key y))).getLast? := by
  rw [AvlTree.avlFindNeighbour]
  cases hroot : t.root with
  | none =>
      have hnil : xs = [] := by
        refine List.eq_nil_iff_forall_not_mem.mpr fun x hx => ?_
        have hmem := (hxs x).mp hx
        rw [h.root_none hroot] at hmem
        cases hmem
      rw [hnil]
      rfl
  | some root =>
      obtain ⟨c, l, m, r, as, ds, bs, -, -, hgs, -, -, hfind, -⟩ :=
        @Sound.place _ _ _ t key gs born root hcomp h fuel hroot hfuel
      have hm : m ∈ xs := (hxs m).mpr (by rw [hgs]; simp)
      simp only [hfind, Option.bind_some]
      exact neighbour_spec hback hon hm (by omega) hgoes hsorted

/-! ## The list of a tree -/

variable [DecidableEq ν] {listHead : ν} {allowDups : Bool}

theorem threads_next (hcirc : Circle t.list t.listHead xs) (hnodup : (t.listHead :: xs).Nodup) :
    Threads t.list.next t.isLast xs := by
  have hall : ∀ as bs, xs = as ++ bs → Threads t.list.next t.isLast bs := by
    intro as bs
    induction bs generalizing as with
    | nil => exact fun _ => trivial
    | cons x bs ih =>
        intro hxs
        have hnext := (hxs ▸ hcirc).next_mem
        cases bs with
        | nil => exact decide_eq_true hnext
        | cons y bs =>
            have hne : t.list.next x ≠ some t.listHead := by
              intro hlast
              have hy : y = t.listHead := Option.some.inj (hnext.symm.trans hlast)
              refine (List.nodup_cons.mp hnodup).1 ?_
              rw [hxs, ← hy]
              simp
            exact ⟨decide_eq_false hne, hnext, ih (as ++ [x]) (by rw [hxs]; simp)⟩
  exact hall [] xs rfl

/-- The other direction. -/
theorem threads_prev (hcirc : Circle t.list t.listHead xs) (hnodup : (t.listHead :: xs).Nodup) :
    Threads t.list.prev t.isFirst xs.reverse :=
  threads_next (t := { t with list := t.list.flip }) hcirc.flip (by simpa using hnodup)

/-- **The neighbours of a key** in every state of a run: the last node of the list whose
key is less or equal, and the first whose key is greater or equal. -/
theorem avlFind_neighbours (hcomp : TotalPreorder comp)
    (h : Reachable comp listHead allowDups t born) :
    ∃ xs, Circle t.list t.listHead xs ∧ (t.listHead :: xs).Nodup ∧ xs.Perm born ∧
      ∀ key fuel, born.length + 2 < fuel →
        t.avlFindLessequal comp fuel key =
          some (xs.filter fun y => comp (t.key y) key ≤ 0).getLast? ∧
        t.avlFindGreaterequal comp fuel key =
          some (xs.filter fun y => 0 ≤ comp (t.key y) key).head? := by
  obtain ⟨⟨gs, hsound⟩, -, -⟩ := h.runs hcomp
  have hcirc := hsound.circle
  have hnodup := hsound.nodup
  have hlength := hsound.perm.length_eq
  have hsorted := hsound.sorted hcomp
  have hnext := threads_next hcirc hnodup
  have hprev := threads_prev hcirc hnodup
  have hswap : ∀ key y, 0 ≤ comp key (t.key y) ↔ comp (t.key y) key ≤ 0 := by
    intro key y
    have h₁ := hcomp.swap key (t.key y)
    omega
  have hswap' : ∀ key y, comp key (t.key y) ≤ 0 ↔ 0 ≤ comp (t.key y) key := by
    intro key y
    have h₁ := hcomp.swap' key (t.key y)
    omega
  refine ⟨members gs, hcirc, hnodup, hsound.perm, fun key fuel hfuel => ⟨?_, ?_⟩⟩
  · have hgoes : ∀ diff : Int, decide (diff < 0) = !decide (0 ≤ diff) := by
      intro diff
      rw [← decide_not, decide_eq_decide]
      omega
    have hdown : (members gs).Pairwise fun a b => decide (0 ≤ comp key (t.key b)) = true →
        decide (0 ≤ comp key (t.key a)) = true := by
      refine hsorted.imp fun {a b} hab => ?_
      rw [decide_eq_true_iff, decide_eq_true_iff, hswap, hswap]
      exact hcomp.trans _ _ _ hab
    rw [AvlTree.avlFindLessequal, hsound.avlFindNeighbour hcomp hprev hnext (fun _ => Iff.rfl)
      hlength (by omega) hgoes hdown]
    simp only [hswap]
  · have hgoes : ∀ diff : Int, decide (0 < diff) = !decide (diff ≤ 0) := by
      intro diff
      rw [← decide_not, decide_eq_decide]
      omega
    have hup : (members gs).reverse.Pairwise fun a b => decide (comp key (t.key b) ≤ 0) = true →
        decide (comp key (t.key a) ≤ 0) = true := by
      refine List.pairwise_reverse.mpr (hsorted.imp fun {a b} hab => ?_)
      rw [decide_eq_true_iff, decide_eq_true_iff]
      exact fun ha => hcomp.trans _ _ _ ha hab
    rw [← List.reverse_reverse (members gs)] at hnext
    rw [AvlTree.avlFindGreaterequal, hsound.avlFindNeighbour hcomp hnext hprev
      (fun _ => List.mem_reverse) (by rw [List.length_reverse, hlength]) (by omega) hgoes hup,
      List.filter_reverse, List.getLast?_reverse]
    simp only [hswap']

/-- In a tree of 1, 2 and 3. -/
theorem avlFind_neighbours_nat : TotalPreorder natComp ∧ ∃ t : AvlTree Nat Nat,
    Reachable natComp 0 true t [1, 2, 3] ∧ ∃ xs : List Nat, xs.Perm [1, 2, 3] ∧
      t.avlFindLessequal natComp 6 2 =
        some (xs.filter fun y => natComp (t.key y) 2 ≤ 0).getLast? := by
  obtain ⟨t, ht, -⟩ := reachable_count true 3
  obtain ⟨xs, -, -, hperm, hall⟩ := avlFind_neighbours natComp_preorder ht
  exact ⟨natComp_preorder, t, ht, xs, hperm, (hall 2 6 (by decide)).1⟩

end Libubox.Avl
