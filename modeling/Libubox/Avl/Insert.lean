import Libubox.Avl.Search

/-!
# Inserting a node

`avl_insert` of a node with an equal key in the tree, which is refused or puts
the node behind the duplicates, and of a node with a new key, which becomes a
leaf and has the tree rebalanced.
-/

namespace Libubox.Avl

open Trees Skeleton Circles

variable {ν κ : Type*} [DecidableEq ν] {comp : κ → κ → Int} {t t' : AvlTree ν κ}
  {gs as bs : List (ν × List ν)} {born xs ys ds : List ν} {g : Skeleton ν} {c : List (Frame ν)}
  {f : Frame ν} {m new : ν}

/-! ## The leaf -/

/-- A leaf beside a leaf. -/
theorem addLeaf_even (hrep : Rep g (plug (f :: c) .nil)) (hbal : (plug (f :: c) .nil).Balanced)
    (hnodup : (plug (f :: c) .nil).toList.Nodup) (hnew : new ∉ (plug (f :: c) .nil).toList)
    (hknot : g.knot new = ⟨none, none, none, 0⟩) (hsib : f.sibling.height = 1) :
    Settled (addLeaf g f.side f.node new 0) (plug (f :: c) (.node .nil new .nil)).toList := by
  obtain ⟨-, -, -, hbalsib, hfits⟩ := balanced_plug.mp hbal
  rw [hsib] at hfits
  obtain ⟨hup, hsub⟩ := addLeaf_spec hrep hnodup hnew hknot (k := 0) (by rw [hsib]; simp)
  rw [hsib] at hup
  exact @settled_plug _ _ c (.join f.side (.node .nil new .nil) f.node f.sibling) 2
    (by rw [BinTree.root_join]; exact hup) hsub (by simp [BinTree.height, hsib])
    (BinTree.balanced_join.mpr ⟨by simp [BinTree.height], by simp [BinTree.height, hsib],
      by simp [BinTree.Balanced], hbalsib⟩) hfits

/-- A leaf below a leaf. -/
theorem addLeaf_lean {fuel : Nat} (hrep : Rep g (plug (f :: c) .nil))
    (hbal : (plug (f :: c) .nil).Balanced) (hnodup : (plug (f :: c) .nil).toList.Nodup)
    (hnew : new ∉ (plug (f :: c) .nil).toList) (hknot : g.knot new = ⟨none, none, none, 0⟩)
    (hsib : f.sibling.height = 0) (hfuel : c.length < fuel) :
    ∃ g', postInsert fuel (addLeaf g f.side f.node new f.side.sign) f.node = some g' ∧
      Settled g' (plug (f :: c) (.node .nil new .nil)).toList := by
  obtain ⟨-, -, -, hbalsib, hfits⟩ := balanced_plug.mp hbal
  rw [hsib] at hfits
  obtain ⟨hup, hsub⟩ := addLeaf_spec hrep hnodup hnew hknot (k := f.side.sign) (by rw [hsib]; simp)
  rw [hsib] at hup
  have hnodup' : (plug (f :: c) (.node .nil new .nil)).toList.Nodup := by
    rw [nodup_plug] at hnodup ⊢
    exact List.nodup_cons.mpr ⟨fun hmem => hnew (mem_plug.mpr (.inr hmem)), hnodup⟩
  refine @postInsert_spec _ _ _ c (.join f.side (.node .nil new .nil) f.node f.sibling) f.node 1 fuel
    (by rw [BinTree.root_join]; exact hup) (BinTree.root_join ..) hsub (by simp [BinTree.height, hsib])
    (BinTree.balanced_join.mpr ⟨by simp [BinTree.height], by simp [BinTree.height, hsib],
      by simp [BinTree.Balanced], hbalsib⟩) hfits ?_ hnodup' hfuel
  rw [(sub_join.mp hsub).1, balance_knotAt, hsib]
  rcases f.side.sign_cases with hs | hs <;> rw [hs] <;> simp [BinTree.height]

/-- The two ways in which a leaf is added on the side of a frame. -/
theorem leaf_cases {fuel : Nat} (hrep : Rep g (plug (f :: c) .nil))
    (hbal : (plug (f :: c) .nil).Balanced) (hnodup : (plug (f :: c) .nil).toList.Nodup)
    (hnew : new ∉ (plug (f :: c) .nil).toList) (hknot : g.knot new = ⟨none, none, none, 0⟩)
    (hfuel : c.length < fuel) :
    ((g.knot f.node).balance = -f.side.sign ∧
      Settled (addLeaf g f.side f.node new 0) (plug (f :: c) (.node .nil new .nil)).toList) ∨
    ((g.knot f.node).balance = 0 ∧
      ∃ g', postInsert fuel (addLeaf g f.side f.node new f.side.sign) f.node = some g' ∧
        Settled g' (plug (f :: c) (.node .nil new .nil)).toList) := by
  obtain ⟨-, -, hhigh, -, -⟩ := balanced_plug.mp hbal
  have hup := (rep_plug.mp hrep).1
  have hbalance : (g.knot f.node).balance = f.side.sign * -(f.sibling.height : Int) := by
    rw [hup.1, balance_knotAt]
    simp [heights, BinTree.height]
  have hle : f.sibling.height = 0 ∨ f.sibling.height = 1 := by
    simp only [BinTree.height] at hhigh
    omega
  rcases hle with hsib | hsib
  · right
    exact ⟨by rw [hbalance, hsib]; simp, addLeaf_lean hrep hbal hnodup hnew hknot hsib hfuel⟩
  · left
    exact ⟨by rw [hbalance, hsib]; simp, addLeaf_even hrep hbal hnodup hnew hknot hsib⟩

/-! ## The list -/

theorem add_after {last : ν} (hcirc : Circle t.list t.listHead (xs ++ ys))
    (hnodup : (t.listHead :: (xs ++ ys)).Nodup) (hnew : new ∉ t.listHead :: (xs ++ ys))
    (hlast : (t.listHead :: xs).getLast? = some last) :
    ∃ next, t.list.next last = some next ∧
      Circle (t.list.add new last next) t.listHead (xs ++ new :: ys) := by
  obtain ⟨a, b, ha, hb, hab⟩ := hcirc.meet
  obtain rfl : a = last := Option.some.inj (ha.symm.trans hlast)
  exact ⟨b, hab.1, hcirc.add hnodup hnew ha hb⟩

theorem add_before {pos : ν} (hcirc : Circle t.list t.listHead (xs ++ pos :: ys))
    (hnodup : (t.listHead :: (xs ++ pos :: ys)).Nodup)
    (hnew : new ∉ t.listHead :: (xs ++ pos :: ys)) :
    ∃ prev, t.list.prev pos = some prev ∧
      Circle (t.list.add new prev pos) t.listHead (xs ++ new :: pos :: ys) := by
  obtain ⟨a, b, ha, hb, hab⟩ := hcirc.meet
  obtain rfl : b = pos := Option.some.inj hb.symm
  exact ⟨a, hab.2, hcirc.add hnodup hnew ha hb⟩

/-! ## The groups -/

namespace Sound

omit [DecidableEq ν] in
/-- A leader with a new key goes between the groups. -/
theorem insertLeader (hcomp : TotalPreorder comp) (h : Sound comp t (as ++ bs) born)
    (hnew : new ∉ born) (hhead : new ≠ t.listHead)
    (has : ∀ p ∈ as, 0 < comp (t.key new) (t.key p.1))
    (hbs : ∀ q ∈ bs, comp (t.key new) (t.key q.1) < 0) (hleader : t.leader new = true)
    {list : Links ν} (hg : Settled g (as.map Prod.fst ++ new :: bs.map Prod.fst))
    (hl : Circle list t.listHead (members as ++ new :: members bs)) :
    Sound comp { t with toSkeleton := g, list := list, count := (t.count + 1) % 2 ^ 32 }
      (as ++ (new, []) :: bs) (born ++ [new]) := by
  have hnotmem := h.notMem hnew hhead
  have hmembers : members (as ++ (new, []) :: bs) = members as ++ new :: members bs := by simp
  have hperm : (members as ++ new :: members bs).Perm (new :: members (as ++ bs)) := by
    rw [members_append]
    exact List.perm_middle
  have hother : ∀ p ∈ as ++ bs, comp (t.key new) (t.key p.1) ≠ 0 := by
    intro p hp
    rcases List.mem_append.mp hp with hp | hp
    · have := has p hp
      omega
    · have := hbs p hp
      omega
  have hcases : ∀ p ∈ as ++ (new, []) :: bs, p = (new, []) ∨ p ∈ as ++ bs := by
    intro p hp
    simp only [List.mem_append, List.mem_cons] at hp ⊢
    tauto
  obtain ⟨has', hbs', hcross⟩ := List.pairwise_append.mp h.ordered
  refine ⟨?_, ?_, ?_, ?_, ?_, ?_, ?_, ?_, ?_, ?_⟩
  · simpa using hg
  · refine List.pairwise_append.mpr ⟨has', List.pairwise_cons.mpr ⟨hbs, hbs'⟩, ?_⟩
    intro p hp q hq
    rcases List.mem_cons.mp hq with rfl | hq
    · exact (hcomp.swap' _ _).mp (has p hp)
    · exact hcross p hp q hq
  · intro p hp
    rw [List.filter_append]
    rcases hcases p hp with rfl | hp
    · have hnil : born.filter (fun y => comp (t.key y) (t.key new) = 0) = [] := by
        rw [List.filter_eq_nil_iff]
        intro y hy hzero
        obtain ⟨p, hp, hyp⟩ := mem_members.mp (h.perm.mem_iff.mpr hy)
        have hyn : comp (t.key y) (t.key new) = 0 := by simpa using hzero
        exact hother p hp ((hcomp.zero_congr hyn).mp (h.equal hp hyp))
      simp [hnil, hcomp.refl]
    · have hnil : [new].filter (fun y => comp (t.key y) (t.key p.1) = 0) = [] := by
        simpa using hother p hp
      rw [h.group p hp, hnil, List.append_nil]
  · rw [hmembers]
    exact (hperm.trans (h.perm.cons new)).trans (List.perm_append_singleton new born).symm
  · intro p hp
    rcases hcases p hp with rfl | hp
    · exact hleader
    · exact h.leader p hp
  · intro p hp
    rcases hcases p hp with rfl | hp
    · intro y hy
      cases hy
    · exact h.follower p hp
  · rw [hmembers]
    exact hl
  · rw [hmembers]
    obtain ⟨hh, hnodup⟩ := List.nodup_cons.mp h.nodup
    rw [List.mem_cons, not_or] at hnotmem
    refine List.nodup_cons.mpr ⟨?_, hperm.nodup_iff.mpr (List.nodup_cons.mpr ⟨hnotmem.2, hnodup⟩)⟩
    intro hmem
    rcases List.mem_cons.mp (hperm.mem_iff.mp hmem) with heq | hmem
    · exact hhead heq.symm
    · exact hh hmem
  · have hlength := hperm.length_eq
    have hcount := h.count
    rw [hmembers, hlength, List.length_cons]
    change (t.count + 1) % 2 ^ 32 = _
    omega
  · intro hdups p hp
    rcases hcases p hp with rfl | hp
    · rfl
    · exact h.unique hdups p hp

omit [DecidableEq ν] in
/-- A duplicate goes behind its group. -/
theorem insertDup (hcomp : TotalPreorder comp) (h : Sound comp t (as ++ (m, ds) :: bs) born)
    (hnew : new ∉ born) (hhead : new ≠ t.listHead) (hzero : comp (t.key new) (t.key m) = 0)
    (hdups : t.allowDups = true) (hleader : t.leader new = false) {list : Links ν}
    (hl : Circle list t.listHead ((members as ++ m :: ds) ++ new :: members bs)) :
    Sound comp { t with list := list, count := (t.count + 1) % 2 ^ 32 }
      (as ++ (m, ds ++ [new]) :: bs) (born ++ [new]) := by
  have hnotmem := h.notMem hnew hhead
  have hmembers : members (as ++ (m, ds ++ [new]) :: bs)
      = (members as ++ m :: ds) ++ new :: members bs := by simp
  have hperm : ((members as ++ m :: ds) ++ new :: members bs).Perm
      (new :: members (as ++ (m, ds) :: bs)) := by
    have hlist : members (as ++ (m, ds) :: bs) = (members as ++ m :: ds) ++ members bs := by simp
    rw [hlist]
    exact List.perm_middle
  obtain ⟨-, hmb, ham⟩ := List.pairwise_append.mp h.ordered
  have hother : ∀ p ∈ as ++ bs, comp (t.key new) (t.key p.1) ≠ 0 := by
    intro p hp hcontra
    have hmp := (hcomp.zero_congr hzero).mp hcontra
    rcases List.mem_append.mp hp with hp | hp
    · have hlt : comp (t.key p.1) (t.key m) < 0 := ham p hp (m, ds) List.mem_cons_self
      have hpm := hcomp.zero_symm hmp
      omega
    · have hlt : comp (t.key m) (t.key p.1) < 0 := (List.pairwise_cons.mp hmb).1 p hp
      omega
  have hcases : ∀ (q : List ν) (p : ν × List ν), p ∈ as ++ (m, q) :: bs →
      p = (m, q) ∨ p ∈ as ++ bs := by
    intro q p hp
    simp only [List.mem_append, List.mem_cons] at hp ⊢
    tauto
  have hold : ∀ p ∈ as ++ bs, p ∈ as ++ (m, ds) :: bs := by
    intro p hp
    simp only [List.mem_append, List.mem_cons] at hp ⊢
    tauto
  have hm : (m, ds) ∈ as ++ (m, ds) :: bs := List.mem_append_right _ List.mem_cons_self
  refine ⟨?_, ?_, ?_, ?_, ?_, ?_, ?_, ?_, ?_, ?_⟩
  · have htree := h.tree
    rw [List.map_append, List.map_cons] at htree ⊢
    exact htree
  · have hordered := h.ordered
    rw [List.pairwise_append, List.pairwise_cons] at hordered ⊢
    refine ⟨hordered.1, hordered.2.1, ?_⟩
    intro p hp q hq
    rcases List.mem_cons.mp hq with rfl | hq
    · exact hordered.2.2 p hp (m, ds) List.mem_cons_self
    · exact hordered.2.2 p hp q (List.mem_cons_of_mem _ hq)
  · intro p hp
    rw [List.filter_append]
    rcases hcases _ p hp with rfl | hp
    · have hgroup := h.group (m, ds) hm
      have hone : [new].filter (fun y => comp (t.key y) (t.key m) = 0) = [new] := by simp [hzero]
      simp only at hgroup ⊢
      rw [← hgroup, hone]
      rfl
    · have hnil : [new].filter (fun y => comp (t.key y) (t.key p.1) = 0) = [] := by
        simpa using hother p hp
      rw [h.group p (hold p hp), hnil, List.append_nil]
  · rw [hmembers]
    exact (hperm.trans (h.perm.cons new)).trans (List.perm_append_singleton new born).symm
  · intro p hp
    rcases hcases _ p hp with rfl | hp
    · exact h.leader (m, ds) hm
    · exact h.leader p (hold p hp)
  · intro p hp y hy
    rcases hcases _ p hp with rfl | hp
    · rcases List.mem_append.mp hy with hy | hy
      · exact h.follower (m, ds) hm y hy
      · rw [List.mem_singleton.mp hy]
        exact hleader
    · exact h.follower p (hold p hp) y hy
  · rw [hmembers]
    exact hl
  · rw [hmembers]
    obtain ⟨hh, hnodup⟩ := List.nodup_cons.mp h.nodup
    rw [List.mem_cons, not_or] at hnotmem
    refine List.nodup_cons.mpr ⟨?_, hperm.nodup_iff.mpr (List.nodup_cons.mpr ⟨hnotmem.2, hnodup⟩)⟩
    intro hmem
    rcases List.mem_cons.mp (hperm.mem_iff.mp hmem) with heq | hmem
    · exact hhead heq.symm
    · exact hh hmem
  · have hlength := hperm.length_eq
    have hcount := h.count
    rw [hmembers, hlength, List.length_cons]
    change (t.count + 1) % 2 ^ 32 = _
    omega
  · intro hfalse
    change t.allowDups = false at hfalse
    rw [hdups] at hfalse
    cases hfalse

/-- The group of a node, as the loop of `avl_insert` sees it. -/
theorem groupEnd {fuel : Nat} (h : Sound comp t (as ++ (m, ds) :: bs) born)
    (hfuel : born.length < fuel) :
    ∃ last, t.groupEnd fuel m = some last ∧
      (t.listHead :: (members as ++ m :: ds)).getLast? = some last := by
  have hlist : members (as ++ (m, ds) :: bs) = members as ++ m :: (ds ++ members bs) := by simp
  have hcirc := h.circle
  have hnodup := h.nodup
  have hlength := h.perm.length_eq
  rw [hlist] at hcirc hnodup hlength
  simp only [List.length_append, List.length_cons] at hlength
  obtain ⟨last, hend, hlast⟩ := groupEnd_spec hcirc hnodup
    (h.follower (m, ds) (List.mem_append_right _ List.mem_cons_self))
    (fun y hy => by
      cases bs with
      | nil => cases hy
      | cons q bs =>
          cases hy
          exact h.leader q (by simp)) (show ds.length < fuel by omega)
  refine ⟨last, hend, ?_⟩
  rw [← List.cons_append, List.getLast?_append, hlast]
  rfl

theorem fresh (h : Sound comp t gs born) (hnew : new ∉ born) :
    Sound comp (t.fresh new) gs born := by
  refine h.congr rfl rfl rfl rfl rfl ?_
  intro x hx
  have hne : x ≠ new := fun heq => hnew (heq ▸ hx)
  refine ⟨knot_modify_of_ne t.toSkeleton (fun _ => ⟨none, none, none, 0⟩) hne, ?_, rfl⟩
  simp [AvlTree.fresh, hne]

/-- A fresh node below a node of the tree. -/
theorem leaf {fuel : Nat} (h : Sound comp (t.fresh new) gs born) (hnew : new ∉ born)
    (hfuel : born.length < fuel) (hrep : Rep (t.fresh new).toSkeleton (plug (f :: c) .nil))
    (hbal : (plug (f :: c) .nil).Balanced)
    (hlist : (plug (f :: c) .nil).toList = gs.map Prod.fst) :
    (((t.fresh new).knot f.node).balance = -f.side.sign ∧
      Settled (addLeaf (t.fresh new).toSkeleton f.side f.node new 0)
        (plug (f :: c) (.node .nil new .nil)).toList) ∨
    (((t.fresh new).knot f.node).balance = 0 ∧
      ∃ g', postInsert fuel (addLeaf (t.fresh new).toSkeleton f.side f.node new f.side.sign) f.node
          = some g' ∧
        Settled g' (plug (f :: c) (.node .nil new .nil)).toList) := by
  obtain ⟨hnodup, hborn⟩ := h.leaders
  rw [← hlist] at hnodup hborn
  refine leaf_cases hrep hbal hnodup (fun hmem => hnew (hborn new hmem))
    (by simp [AvlTree.fresh]) ?_
  have hle := h.length_le
  have hlength := (perm_plug (f :: c) .nil).length_eq
  have haround := length_le_around (f :: c)
  rw [hlist, List.length_map] at hlength
  simp only [BinTree.toList_nil, List.nil_append] at hlength
  rw [List.length_cons] at haround
  omega

end Sound

/-! ## `avl_insert` -/

/-- The fields that inserting and deleting leave. -/
def SameHead (t t' : AvlTree ν κ) : Prop :=
  t'.key = t.key ∧ t'.listHead = t.listHead ∧ t'.allowDups = t.allowDups

/-- The first node. -/
theorem avlInsert_first {fuel : Nat} (hcomp : TotalPreorder comp) (h : Sound comp t gs born)
    (hnew : new ∉ born) (hhead : new ≠ t.listHead) (hroot : t.root = none) :
    ∃ t' gs', t.avlInsert comp fuel new = some (true, t') ∧
      Sound comp t' gs' (born ++ [new]) ∧ SameHead t t' := by
  have h₁ := h.fresh hnew
  obtain ⟨s, hrep, -, hs⟩ := h.tree
  cases BinTree.root_eq_none (hrep.1.symm.trans hroot)
  obtain rfl : gs = [] := List.map_eq_nil_iff.mp hs.symm
  obtain ⟨next, hnext, hcirc⟩ := @add_after _ _ _ (t.fresh new) [] [] new t.listHead
    h₁.circle h₁.nodup (h₁.notMem hnew hhead) rfl
  have hg : Settled { (t.fresh new).toSkeleton with root := some new } [new] := by
    refine ⟨.node .nil new .nil, ⟨rfl, ?_, trivial, trivial⟩, ?_, rfl⟩
    · simp [AvlTree.fresh, BinTree.root, BinTree.height]
    · simp [BinTree.Balanced]
  have hsound := @Sound.insertLeader _ _ _ _ [] [] _ { (t.fresh new).toSkeleton with root := some new }
    new hcomp h₁ hnew hhead (by simp) (by simp) (by simp [AvlTree.fresh]) _ hg hcirc
  have hzero : (t.fresh new).count = 0 := h₁.count
  rw [hzero] at hsound
  refine ⟨_, _, ?_, hsound, rfl, rfl, rfl⟩
  have hroot₁ : (t.fresh new).root = none := hroot
  have hnext₁ : (t.fresh new).list.next (t.fresh new).listHead = some next := hnext
  simp only [AvlTree.avlInsert, hroot₁, hnext₁, Option.map_some]
  rfl

/-- A node below a node with a greater key. -/
theorem avlInsert_left {fuel : Nat} {r : BinTree ν} {root : ν} (hcomp : TotalPreorder comp)
    (h : Sound comp (t.fresh new) (as ++ (m, ds) :: bs) born) (hnew : new ∉ born)
    (hhead : new ≠ t.listHead) (hfuel : born.length < fuel) (hroot : t.root = some root)
    (hrep : Rep (t.fresh new).toSkeleton (plug c (.node .nil m r)))
    (hbal : (plug c (.node .nil m r)).Balanced) (has : as.map Prod.fst = before c)
    (hbs : bs.map Prod.fst = r.toList ++ after c)
    (hfind : (t.fresh new).avlFindRec comp (t.key new) fuel root
      = some (m, comp (t.key new) (t.key m)))
    (hlt : comp (t.key new) (t.key m) < 0) (hfront : ∀ p ∈ as, 0 < comp (t.key new) (t.key p.1))
    (hback : ∀ q ∈ bs, comp (t.key new) (t.key q.1) < 0) :
    ∃ t' gs', t.avlInsert comp fuel new = some (true, t') ∧
      Sound comp t' gs' (born ++ [new]) ∧ SameHead t t' := by
  obtain ⟨last, hend, -⟩ := h.groupEnd hfuel
  have hlist : members (as ++ (m, ds) :: bs) = members as ++ m :: (ds ++ members bs) := by simp
  have hcirc := h.circle
  have hnodup := h.nodup
  have hnotmem := h.notMem hnew hhead
  rw [hlist] at hcirc hnodup hnotmem
  obtain ⟨prev, hprev, hcirc'⟩ := add_before hcirc hnodup hnotmem
  have hplug : (plug (⟨.left, m, r⟩ :: c) (.node .nil new .nil)).toList
      = as.map Prod.fst ++ new :: ((m, ds) :: bs).map Prod.fst := by
    simp [toList_plug, before, after, has, hbs]
  have hplug₀ : (plug (⟨.left, m, r⟩ :: c) .nil).toList = (as ++ (m, ds) :: bs).map Prod.fst := by
    simp [toList_plug, before, after, has, hbs]
  have hsound : ∀ g', Settled g' (plug (⟨.left, m, r⟩ :: c) (.node .nil new .nil)).toList →
      Sound comp { t.fresh new with
        toSkeleton := g', list := (t.fresh new).list.add new prev m,
        count := ((t.fresh new).count + 1) % 2 ^ 32 }
        (as ++ (new, []) :: (m, ds) :: bs) (born ++ [new]) := by
    intro g' hg
    rw [hplug] at hg
    refine h.insertLeader hcomp hnew hhead hfront ?_ (by simp [AvlTree.fresh]) hg
      (by simpa using hcirc')
    intro q hq
    rcases List.mem_cons.mp hq with rfl | hq
    · exact hlt
    · exact hback q hq
  have hroot₁ : (t.fresh new).root = some root := hroot
  have hfind₁ : (t.fresh new).avlFindRec comp ((t.fresh new).key new) fuel root
      = some (m, comp (t.key new) (t.key m)) := hfind
  have hkey : comp ((t.fresh new).key new) ((t.fresh new).key m) = comp (t.key new) (t.key m) := rfl
  have hne : comp (t.key new) (t.key m) ≠ 0 := by omega
  rcases @Sound.leaf _ _ _ _ t _ born c ⟨.left, m, r⟩ new fuel h hnew hfuel hrep hbal hplug₀ with
    ⟨hbalance, hg⟩ | ⟨hbalance, g', hinsert, hg⟩
  · have hone : ((t.fresh new).knot m).balance = 1 := hbalance
    refine ⟨_, _, ?_, hsound _ hg, rfl, rfl, rfl⟩
    simp only [AvlTree.avlInsert, hroot₁, hfind₁, hend, hkey, hne, hone, AvlTree.avlInsertBefore,
      hprev, AvlTree.attach, Option.bind_some, Option.map_some, if_false, if_true]
  · have hzero : ((t.fresh new).knot m).balance = 0 := hbalance
    have hinsert₁ : postInsert fuel (addLeaf (t.fresh new).toSkeleton .left m new (-1)) m
        = some g' := hinsert
    refine ⟨_, _, ?_, hsound _ hg, rfl, rfl, rfl⟩
    simp only [AvlTree.avlInsert, hroot₁, hfind₁, hend, hkey, hne, hlt, hzero,
      AvlTree.avlInsertBefore, hprev, AvlTree.attach, AvlTree.rebalance, hinsert₁,
      Option.bind_some, Option.map_some, if_false, if_true]
    rfl

/-- A node below a node with a smaller key. -/
theorem avlInsert_right {fuel : Nat} {l : BinTree ν} {root : ν} (hcomp : TotalPreorder comp)
    (h : Sound comp (t.fresh new) (as ++ (m, ds) :: bs) born) (hnew : new ∉ born)
    (hhead : new ≠ t.listHead) (hfuel : born.length < fuel) (hroot : t.root = some root)
    (hrep : Rep (t.fresh new).toSkeleton (plug c (.node l m .nil)))
    (hbal : (plug c (.node l m .nil)).Balanced) (has : as.map Prod.fst = before c ++ l.toList)
    (hbs : bs.map Prod.fst = after c)
    (hfind : (t.fresh new).avlFindRec comp (t.key new) fuel root
      = some (m, comp (t.key new) (t.key m)))
    (hgt : 0 < comp (t.key new) (t.key m)) (hfront : ∀ p ∈ as, 0 < comp (t.key new) (t.key p.1))
    (hback : ∀ q ∈ bs, comp (t.key new) (t.key q.1) < 0) :
    ∃ t' gs', t.avlInsert comp fuel new = some (true, t') ∧
      Sound comp t' gs' (born ++ [new]) ∧ SameHead t t' := by
  obtain ⟨last, hend, hlast⟩ := h.groupEnd hfuel
  have hlist : members (as ++ (m, ds) :: bs) = (members as ++ m :: ds) ++ members bs := by simp
  have hcirc := h.circle
  have hnodup := h.nodup
  have hnotmem := h.notMem hnew hhead
  rw [hlist] at hcirc hnodup hnotmem
  obtain ⟨next, hnext, hcirc'⟩ := add_after hcirc hnodup hnotmem hlast
  have hplug : (plug (⟨.right, m, l⟩ :: c) (.node .nil new .nil)).toList
      = (as ++ [(m, ds)]).map Prod.fst ++ new :: bs.map Prod.fst := by
    simp [toList_plug, before, after, has, hbs]
  have hplug₀ : (plug (⟨.right, m, l⟩ :: c) .nil).toList = (as ++ (m, ds) :: bs).map Prod.fst := by
    simp [toList_plug, before, after, has, hbs]
  have hsound : ∀ g', Settled g' (plug (⟨.right, m, l⟩ :: c) (.node .nil new .nil)).toList →
      Sound comp { t.fresh new with
        toSkeleton := g', list := (t.fresh new).list.add new last next,
        count := ((t.fresh new).count + 1) % 2 ^ 32 }
        ((as ++ [(m, ds)]) ++ (new, []) :: bs) (born ++ [new]) := by
    intro g' hg
    rw [hplug] at hg
    have hgroups : as ++ (m, ds) :: bs = (as ++ [(m, ds)]) ++ bs := by simp
    rw [hgroups] at h
    refine h.insertLeader hcomp hnew hhead ?_ hback (by simp [AvlTree.fresh]) hg
      (by simpa using hcirc')
    intro p hp
    rcases List.mem_append.mp hp with hp | hp
    · exact hfront p hp
    · rw [List.mem_singleton.mp hp]
      exact hgt
  have hroot₁ : (t.fresh new).root = some root := hroot
  have hfind₁ : (t.fresh new).avlFindRec comp ((t.fresh new).key new) fuel root
      = some (m, comp (t.key new) (t.key m)) := hfind
  have hkey : comp ((t.fresh new).key new) ((t.fresh new).key m) = comp (t.key new) (t.key m) := rfl
  have hne : comp (t.key new) (t.key m) ≠ 0 := by omega
  have hlt : ¬comp (t.key new) (t.key m) < 0 := by omega
  rcases @Sound.leaf _ _ _ _ t _ born c ⟨.right, m, l⟩ new fuel h hnew hfuel hrep hbal hplug₀ with
    ⟨hbalance, hg⟩ | ⟨hbalance, g', hinsert, hg⟩
  · have hone : ((t.fresh new).knot m).balance = -1 := hbalance
    refine ⟨_, _, ?_, hsound _ hg, rfl, rfl, rfl⟩
    simp only [AvlTree.avlInsert, hroot₁, hfind₁, hend, hkey, hne, hone, AvlTree.avlInsertAfter,
      hnext, AvlTree.attach, Option.bind_some, Option.map_some, if_false, if_true]
    rfl
  · have hzero : ((t.fresh new).knot m).balance = 0 := hbalance
    have hinsert₁ : postInsert fuel (addLeaf (t.fresh new).toSkeleton .right m new 1) m
        = some g' := hinsert
    refine ⟨_, _, ?_, hsound _ hg, rfl, rfl, rfl⟩
    simp only [AvlTree.avlInsert, hroot₁, hfind₁, hend, hkey, hne, hlt, hzero,
      AvlTree.avlInsertAfter, hnext, AvlTree.attach, AvlTree.rebalance, hinsert₁,
      Option.bind_some, Option.map_some, if_false]
    rfl

/-- A duplicate. -/
theorem avlInsert_dup {fuel : Nat} {root : ν} (hcomp : TotalPreorder comp)
    (h : Sound comp (t.fresh new) (as ++ (m, ds) :: bs) born) (hnew : new ∉ born)
    (hhead : new ≠ t.listHead) (hfuel : born.length < fuel) (hroot : t.root = some root)
    (hdups : t.allowDups = true)
    (hfind : (t.fresh new).avlFindRec comp (t.key new) fuel root
      = some (m, comp (t.key new) (t.key m)))
    (hzero : comp (t.key new) (t.key m) = 0) :
    ∃ t' gs', t.avlInsert comp fuel new = some (true, t') ∧
      Sound comp t' gs' (born ++ [new]) ∧ SameHead t t' := by
  obtain ⟨last, hend, hlast⟩ := h.groupEnd hfuel
  -- the node is no leader any more
  let t₁ : AvlTree ν κ := { t.fresh new with
    leader := Function.update (t.fresh new).leader new false }
  have h₁ : Sound comp t₁ (as ++ (m, ds) :: bs) born := by
    refine h.congr rfl rfl rfl rfl rfl ?_
    intro x hx
    have hne : x ≠ new := fun heq => hnew (heq ▸ hx)
    exact ⟨rfl, by simp [t₁, hne], rfl⟩
  have hlist : members (as ++ (m, ds) :: bs) = (members as ++ m :: ds) ++ members bs := by simp
  have hcirc := h₁.circle
  have hnodup := h₁.nodup
  have hnotmem := h₁.notMem hnew hhead
  rw [hlist] at hcirc hnodup hnotmem
  obtain ⟨next, hnext, hcirc'⟩ := add_after hcirc hnodup hnotmem hlast
  have hsound := h₁.insertDup hcomp hnew hhead hzero hdups (by simp [t₁]) hcirc'
  have hroot₁ : (t.fresh new).root = some root := hroot
  have hfind₁ : (t.fresh new).avlFindRec comp ((t.fresh new).key new) fuel root
      = some (m, comp (t.key new) (t.key m)) := hfind
  have hkey : comp ((t.fresh new).key new) ((t.fresh new).key m) = 0 := hzero
  have hdups₁ : (t.fresh new).allowDups = true := hdups
  have hnext₁ : (t.fresh new).list.next last = some next := hnext
  refine ⟨_, _, ?_, hsound, rfl, rfl, rfl⟩
  simp only [AvlTree.avlInsert, hroot₁, hfind₁, hend, hkey, hdups₁, AvlTree.avlInsertAfter,
    hnext₁, Option.bind_some, Option.map_some, if_true]
  rw [show t₁.allowDups = true from hdups]

/-- **`avl_insert`** fails when the tree takes no duplicates and has a node with the
key, and has changed the fields of the new node only then. -/
theorem avlInsert_taken {fuel : Nat} (hcomp : TotalPreorder comp) (h : Sound comp t gs born)
    (hnew : new ∉ born) (hfuel : born.length < fuel) (hdups : t.allowDups = false)
    (htaken : ∃ y ∈ born, comp (t.key new) (t.key y) = 0) :
    t.avlInsert comp fuel new = some (false, t.fresh new) := by
  obtain ⟨y, hy, hyzero⟩ := htaken
  have h₁ := h.fresh hnew
  have hfound : y ∈ born.filter fun y => comp (t.key new) (t.key y) = 0 :=
    List.mem_filter.mpr ⟨hy, by simpa using hyzero⟩
  cases hroot : t.root with
  | none =>
      obtain ⟨s, hrep, -, hs⟩ := h.tree
      cases BinTree.root_eq_none (hrep.1.symm.trans hroot)
      obtain rfl : gs = [] := List.map_eq_nil_iff.mp hs.symm
      have hnil : born = [] := h.perm.symm.eq_nil
      rw [hnil] at hy
      cases hy
  | some root =>
      have hroot₁ : (t.fresh new).root = some root := hroot
      obtain ⟨c, l, m, r, as, ds, bs, -, -, rfl, -, -, hfind, -, -, hfront, hback⟩ :=
        @Sound.place _ _ _ (t.fresh new) (t.key new) gs born root hcomp h₁ fuel hroot₁ hfuel
      obtain ⟨last, hend, -⟩ := h₁.groupEnd hfuel
      have heq : born.filter (fun y => comp (t.key new) (t.key y) = 0)
          = if comp (t.key new) (t.key m) = 0 then m :: ds else [] :=
        @Sound.filter_eq _ _ _ (t.fresh new) _ _ _ _ _ _ hcomp h₁ hfront hback
      have hzero : comp (t.key new) (t.key m) = 0 := by
        by_contra hne
        rw [heq, if_neg hne] at hfound
        cases hfound
      have hfind₁ : (t.fresh new).avlFindRec comp ((t.fresh new).key new) fuel root
          = some (m, comp ((t.fresh new).key new) ((t.fresh new).key m)) := hfind
      have hkey : comp ((t.fresh new).key new) ((t.fresh new).key m) = 0 := hzero
      have hdups₁ : (t.fresh new).allowDups = false := hdups
      simp [AvlTree.avlInsert, hroot₁, hfind₁, hend, hkey, hdups₁]

/-- **`avl_insert`** succeeds otherwise, and the node is the last one then. -/
theorem avlInsert_free {fuel : Nat} (hcomp : TotalPreorder comp) (h : Sound comp t gs born)
    (hnew : new ∉ born) (hhead : new ≠ t.listHead) (hfuel : born.length < fuel)
    (hfree : t.allowDups = true ∨ ∀ y ∈ born, comp (t.key new) (t.key y) ≠ 0) :
    ∃ t' gs', t.avlInsert comp fuel new = some (true, t') ∧
      Sound comp t' gs' (born ++ [new]) ∧ SameHead t t' := by
  cases hroot : t.root with
  | none => exact avlInsert_first hcomp h hnew hhead hroot
  | some root =>
      have h₁ := h.fresh hnew
      have hroot₁ : (t.fresh new).root = some root := hroot
      obtain ⟨c, l, m, r, as, ds, bs, hrep, hbal, rfl, has, hbs, hfind, hleft, hright, hfront,
        hback⟩ :=
        @Sound.place _ _ _ (t.fresh new) (t.key new) gs born root hcomp h₁ fuel hroot₁ hfuel
      rcases Int.lt_trichotomy (comp (t.key new) (t.key m)) 0 with hlt | hzero | hgt
      · obtain rfl := hleft hlt
        exact avlInsert_left hcomp h₁ hnew hhead hfuel hroot hrep hbal (by simpa using has) hbs
          hfind hlt hfront hback
      · have hdups : t.allowDups = true := by
          rcases hfree with hdups | hfree
          · exact hdups
          · exact absurd hzero (hfree m (h₁.leaders.2 m (by simp)))
        exact avlInsert_dup hcomp h₁ hnew hhead hfuel hroot hdups hfind hzero
      · obtain rfl := hright hgt
        exact avlInsert_right hcomp h₁ hnew hhead hfuel hroot hrep hbal has (by simpa using hbs)
          hfind hgt hfront hback

end Libubox.Avl
