import Libubox.Avl.Insert

/-!
# Deleting a node

`avl_delete` of a leader that is alone, which has the tree rebalanced, of a leader
with duplicates, the first of which takes its place, and of a duplicate.  What is
left of the group is the same thing in all three: the group without the node.
-/

namespace Libubox.Avl

open Trees Skeleton Circles

variable {ν κ : Type*} [DecidableEq ν] {comp : κ → κ → Int} {t t' : AvlTree ν κ}
  {gs as bs : List (ν × List ν)} {born ds : List ν} {m x y : ν}

/-- The group of some nodes, or none. -/
def regroup : List ν → List (ν × List ν)
  | [] => []
  | y :: ys => [(y, ys)]

omit [DecidableEq ν] in
@[simp] theorem members_regroup (xs : List ν) : members (regroup xs) = xs := by
  cases xs with
  | nil => rfl
  | cons y ys => simp [regroup]

omit [DecidableEq ν] in
theorem mem_regroup {xs : List ν} {p : ν × List ν} : p ∈ regroup xs ↔ xs = p.1 :: p.2 := by
  cases xs with
  | nil => simp [regroup]
  | cons y ys =>
      simp only [regroup, List.mem_singleton, List.cons.injEq]
      exact ⟨fun h => by rw [h]; exact ⟨rfl, rfl⟩, fun ⟨h₁, h₂⟩ => Prod.ext h₁.symm h₂.symm⟩

namespace Sound

/-- The node is taken out of its group. -/
theorem remove (hcomp : TotalPreorder comp) (h : Sound comp t (as ++ (m, ds) :: bs) born)
    (hx : x ∈ m :: ds) (hkey : t'.key = t.key) (hhead : t'.listHead = t.listHead)
    (hdups : t'.allowDups = t.allowDups)
    (htree : Settled t'.toSkeleton
      (as.map Prod.fst ++ ((regroup ((m :: ds).erase x)).map Prod.fst ++ bs.map Prod.fst)))
    (hcirc : Circle t'.list t.listHead (members as ++ ((m :: ds).erase x ++ members bs)))
    (hcount : t'.count = (t.count + (2 ^ 32 - 1)) % 2 ^ 32)
    (hleader : ∀ p ∈ regroup ((m :: ds).erase x), t'.leader p.1 = true)
    (hother : ∀ z, (∀ p ∈ regroup ((m :: ds).erase x), z ≠ p.1) → t'.leader z = t.leader z) :
    Sound comp t' (as ++ (regroup ((m :: ds).erase x) ++ bs)) (born.erase x) := by
  have hgroup := h.group (m, ds) (List.mem_append_right _ List.mem_cons_self)
  have hmembers : members (as ++ (m, ds) :: bs) = members as ++ ((m :: ds) ++ members bs) := by simp
  have hmembers' : members (as ++ (regroup ((m :: ds).erase x) ++ bs))
      = members as ++ ((m :: ds).erase x ++ members bs) := by simp
  obtain ⟨hhm, hnodup⟩ := List.nodup_cons.mp h.nodup
  rw [hmembers] at hhm hnodup
  obtain ⟨hnas, hnrest, hdisj⟩ := List.nodup_append.mp hnodup
  obtain ⟨hngroup, hnbs, hdisj'⟩ := List.nodup_append.mp hnrest
  have hxas : x ∉ members as := fun hmem => hdisj x hmem x (List.mem_append_left _ hx) rfl
  have hxbs : x ∉ members bs := fun hmem => hdisj' x hx x hmem rfl
  have hleft : (members as ++ ((m :: ds) ++ members bs)).erase x
      = members as ++ ((m :: ds).erase x ++ members bs) := by
    rw [List.erase_append_right _ hxas, List.erase_append_left _ hx]
  have hmid : ∀ p ∈ regroup ((m :: ds).erase x), comp (t.key p.1) (t.key m) = 0 := by
    intro p hp
    rw [mem_regroup] at hp
    have hmem : p.1 ∈ m :: ds := List.mem_of_mem_erase (hp ▸ List.mem_cons_self)
    exact h.equal (List.mem_append_right _ List.mem_cons_self) (List.mem_cons.mp hmem)
  have hcases : ∀ p ∈ as ++ (regroup ((m :: ds).erase x) ++ bs),
      p ∈ regroup ((m :: ds).erase x) ∨ p ∈ as ++ (m, ds) :: bs ∧ (p ∈ as ∨ p ∈ bs) := by
    intro p hp
    simp only [List.mem_append, List.mem_cons] at hp ⊢
    tauto
  have hold : ∀ p, p ∈ as ∨ p ∈ bs → (∀ z, z = p.1 ∨ z ∈ p.2 → z ∉ m :: ds) := by
    rintro p (hp | hp) z hz hmem
    · exact hdisj z (mem_members.mpr ⟨p, hp, hz⟩) z (List.mem_append_left _ hmem) rfl
    · exact hdisj' z hmem z (mem_members.mpr ⟨p, hp, hz⟩) rfl
  have hkeep : ∀ p, p ∈ as ∨ p ∈ bs → ∀ z, z = p.1 ∨ z ∈ p.2 → t'.leader z = t.leader z := by
    intro p hp z hz
    apply hother
    rintro q hq rfl
    rw [mem_regroup] at hq
    exact hold p hp q.1 hz (List.mem_of_mem_erase (hq ▸ List.mem_cons_self))
  obtain ⟨has, hmbs, hcross⟩ := List.pairwise_append.mp h.ordered
  obtain ⟨hm, hbs⟩ := List.pairwise_cons.mp hmbs
  refine ⟨?_, ?_, ?_, ?_, ?_, ?_, ?_, ?_, ?_, ?_⟩
  · rw [List.map_append, List.map_append]
    exact htree
  · rw [hkey]
    refine List.pairwise_append.mpr ⟨has, List.pairwise_append.mpr ⟨?_, hbs, ?_⟩, ?_⟩
    · cases (m :: ds).erase x with
      | nil => exact .nil
      | cons y ys => exact List.pairwise_singleton _ _
    · intro p hp q hq
      exact (hcomp.neg_congr (hmid p hp)).mpr (hm q hq)
    · intro p hp q hq
      rcases List.mem_append.mp hq with hq | hq
      · exact hcomp.lt_of_lt_of_le (hcross p hp (m, ds) List.mem_cons_self)
          (Int.le_of_eq (hcomp.zero_symm (hmid q hq)))
      · exact hcross p hp q (List.mem_cons_of_mem _ hq)
  · intro p hp
    rw [hkey, ← List.erase_filter]
    rcases hcases p hp with hp | ⟨hp, hside⟩
    · have hsame : born.filter (fun y => comp (t.key y) (t.key p.1) = 0)
          = born.filter (fun y => comp (t.key y) (t.key m) = 0) := by
        apply List.filter_congr
        intro y _
        have hiff : comp (t.key p.1) (t.key y) = 0 ↔ comp (t.key m) (t.key y) = 0 :=
          hcomp.zero_congr (hmid p hp)
        have hp₁ : comp (t.key y) (t.key p.1) = 0 ↔ comp (t.key p.1) (t.key y) = 0 :=
          ⟨hcomp.zero_symm, hcomp.zero_symm⟩
        have hm₁ : comp (t.key y) (t.key m) = 0 ↔ comp (t.key m) (t.key y) = 0 :=
          ⟨hcomp.zero_symm, hcomp.zero_symm⟩
        simp only [hp₁, hm₁, hiff]
      rw [hsame, ← hgroup, ← mem_regroup.mp hp]
    · rw [← h.group p hp, List.erase_of_not_mem]
      intro hmem
      exact hold p hside x (List.mem_cons.mp hmem) hx
  · have hperm := h.perm.erase x
    rw [hmembers, hleft] at hperm
    rw [hmembers']
    exact hperm
  · intro p hp
    rcases hcases p hp with hp | ⟨hp, hside⟩
    · exact hleader p hp
    · rw [hkeep p hside p.1 (.inl rfl)]
      exact h.leader p hp
  · intro p hp z hz
    rcases hcases p hp with hp | ⟨hp, hside⟩
    · have herase := mem_regroup.mp hp
      have hnodup' := hngroup.erase x
      rw [herase] at hnodup'
      have hzp : z ≠ p.1 := fun heq => (List.nodup_cons.mp hnodup').1 (heq ▸ hz)
      have hzds : z ∈ ds := by
        by_cases hxm : x = m
        · rw [hxm, List.erase_cons_head] at herase
          exact herase ▸ List.mem_cons_of_mem p.1 hz
        · rw [List.erase_cons_tail (by simpa using Ne.symm hxm)] at herase
          exact List.mem_of_mem_erase ((List.cons.inj herase).2 ▸ hz)
      rw [hother z (fun q hq => by
        rw [mem_regroup, herase] at hq
        rw [← (List.cons.inj hq).1]
        exact hzp)]
      exact h.follower (m, ds) (List.mem_append_right _ List.mem_cons_self) z hzds
    · rw [hkeep p hside z (.inr hz)]
      exact h.follower p hp z hz
  · rw [hmembers', hhead]
    exact hcirc
  · rw [hmembers', hhead, ← hleft]
    exact List.nodup_cons.mpr ⟨fun hmem => hhm (List.mem_of_mem_erase hmem), hnodup.erase x⟩
  · have hlength := List.length_erase_of_mem (show x ∈ members as ++ ((m :: ds) ++ members bs) from
      List.mem_append_right _ (List.mem_append_left _ hx))
    have hpos : 0 < (members as ++ ((m :: ds) ++ members bs)).length :=
      List.length_pos_of_mem (List.mem_append_right _ (List.mem_append_left _ hx))
    have hcount₁ := h.count
    rw [hmembers] at hcount₁
    rw [hmembers', ← hleft, hlength, hcount]
    omega
  · intro hfalse p hp
    rw [hdups] at hfalse
    rcases hcases p hp with hp | ⟨hp, -⟩
    · have hnil := h.unique hfalse (m, ds) (List.mem_append_right _ List.mem_cons_self)
      have herase := mem_regroup.mp hp
      simp only at hnil
      subst hnil
      rw [List.mem_singleton.mp hx, List.erase_cons_head] at herase
      cases herase
    · exact h.unique hfalse p hp

/-- A node is taken out of the list. -/
theorem del (h : Sound comp t (as ++ (m, ds) :: bs) born) (hx : x ∈ m :: ds) :
    ∃ list, t.list.del x = some list ∧
      Circle list t.listHead (members as ++ ((m :: ds).erase x ++ members bs)) := by
  obtain ⟨us, vs, hsplit⟩ := List.append_of_mem hx
  have hlist : members (as ++ (m, ds) :: bs) = (members as ++ us) ++ x :: (vs ++ members bs) := by
    rw [members_append, members_cons, ← List.cons_append, hsplit]
    simp
  have hcirc := h.circle
  have hnodup := h.nodup
  rw [hlist] at hcirc hnodup
  obtain ⟨list, hdel, hcirc', -⟩ := hcirc.del hnodup
  refine ⟨list, hdel, ?_⟩
  have hxus : x ∉ us := by
    intro hmem
    obtain ⟨-, -, hdisj⟩ := List.nodup_append.mp (List.nodup_cons.mp hnodup).2
    exact hdisj x (List.mem_append_right _ hmem) x List.mem_cons_self rfl
  rw [hsplit, List.erase_append_right _ hxus, List.erase_cons_head]
  simpa using hcirc'

omit [DecidableEq ν] in
/-- The node behind a leader. -/
theorem next_leader (h : Sound comp t (as ++ (m, ds) :: bs) born) :
    t.list.next m = (ds ++ members bs ++ [t.listHead]).head? := by
  have hcirc := h.circle
  rw [members_append, members_cons] at hcirc
  exact hcirc.next_mem

end Sound

/-- A leader without duplicates. -/
theorem avlDelete_alone {fuel : Nat} (hcomp : TotalPreorder comp)
    (h : Sound comp t (as ++ (m, []) :: bs) born) (hfuel : born.length + 2 < fuel) :
    ∃ t', t.avlDelete fuel m = some t' ∧ Sound comp t' (as ++ bs) (born.erase m) ∧
      SameHead t t' := by
  obtain ⟨list, hdel, hcirc⟩ := h.del List.mem_cons_self
  obtain ⟨s, hrep, hbal, hs⟩ := h.tree
  rw [List.map_append, List.map_cons] at hs
  have hnodup : s.toList.Nodup := by
    rw [hs]
    simpa using h.leaders.1
  have hmem : m ∈ s.toList := by
    rw [hs]
    exact List.mem_append_right _ List.mem_cons_self
  obtain ⟨fuel, rfl⟩ := Nat.exists_eq_add_of_le' (show 2 ≤ fuel by omega)
  have hsize : s.toList.length < fuel := by
    have hle := h.length_le
    have hlength := congrArg List.length hs
    simp only [List.length_append, List.length_cons, List.length_map] at hlength hle
    omega
  obtain ⟨g, hworker, hg⟩ := avlDeleteWorker_spec hrep hbal hnodup hmem hsize
  have hmas : m ∉ as.map Prod.fst := by
    intro hmem
    rw [hs] at hnodup
    exact (List.nodup_append.mp hnodup).2.2 m hmem m List.mem_cons_self rfl
  rw [hs, List.erase_append_right _ hmas, List.erase_cons_head] at hg
  have hleader := h.leader (m, []) (List.mem_append_right _ List.mem_cons_self)
  have hnext := h.next_leader
  have hcut : t.avlDelete (fuel + 2) m = (t.cut (fuel + 2) m).bind fun t => t.avlRemove m := by
    simp only at hleader
    rw [AvlTree.avlDelete, if_pos hleader]
    split
    · next hlast =>
        cases bs with
        | nil =>
            simp only [members_nil, List.append_nil, List.nil_append, List.head?_cons] at hnext
            simp [AvlTree.isLast, hnext] at hlast
        | cons q bs =>
            have hq : t.leader q.1 = true := h.leader q (by simp)
            have hnext₁ : t.list.next m = some q.1 := hnext
            rw [hnext₁, Option.bind_some, if_pos hq]
    · rfl
  refine ⟨{ t with toSkeleton := g, list := list, count := (t.count + (2 ^ 32 - 1)) % 2 ^ 32 },
    ?_, ?_, rfl, rfl, rfl⟩
  · rw [hcut, AvlTree.cut, hworker, Option.map_some, Option.bind_some, AvlTree.avlRemove]
    simp only [hdel, Option.map_some]
  · have hsound := @Sound.remove _ _ _ comp t
      { t with toSkeleton := g, list := list, count := (t.count + (2 ^ 32 - 1)) % 2 ^ 32 }
      as bs born [] m m hcomp h List.mem_cons_self rfl rfl rfl
      (by simpa [regroup] using hg) hcirc rfl (by simp [regroup]) (fun z _ => rfl)
    simpa [regroup] using hsound

/-- The first duplicate takes the place of the leader. -/
theorem Sound.takePlace (h : Sound comp t (as ++ (m, y :: ds) :: bs) born) :
    Settled (t.takePlace m y) (as.map Prod.fst ++ y :: bs.map Prod.fst) := by
  obtain ⟨s, hrep, hbal, hs⟩ := h.tree
  rw [List.map_append, List.map_cons] at hs
  have hnodup : s.toList.Nodup := by
    rw [hs]
    simpa using h.leaders.1
  have hy : y ∉ s.toList := by
    intro hmem
    rw [hs] at hmem
    have hgroups : y ∈ members as ∨ y = m ∨ y ∈ members bs := by
      rcases List.mem_append.mp hmem with hmem | hmem
      · exact .inl ((leaders_sublist as).subset hmem)
      · rcases List.mem_cons.mp hmem with hmem | hmem
        · exact .inr (.inl hmem)
        · exact .inr (.inr ((leaders_sublist bs).subset hmem))
    have hall := (List.nodup_cons.mp h.nodup).2
    simp only [members_append, members_cons, List.cons_append] at hall
    obtain ⟨-, hall, hdisj⟩ := List.nodup_append.mp hall
    obtain ⟨hm, hall⟩ := List.nodup_cons.mp hall
    rcases hgroups with hmem | rfl | hmem
    · exact hdisj y hmem y (List.mem_cons_of_mem m List.mem_cons_self) rfl
    · exact hm List.mem_cons_self
    · exact (List.nodup_cons.mp hall).1 (List.mem_append_right _ hmem)
  have hmem : m ∈ s.toList := by
    rw [hs]
    exact List.mem_append_right _ List.mem_cons_self
  obtain ⟨c, l, r, rfl⟩ := exists_plug hmem
  refine ⟨plug c (.node l y r), hrep.takePlace hnodup hy, ?_, ?_⟩
  · rw [balanced_plug] at hbal ⊢
    exact hbal
  · have hsplit : ∀ z, (plug c (.node l z r)).toList
        = (before c ++ l.toList) ++ z :: (r.toList ++ after c) := by
      simp [toList_plug]
    rw [hsplit] at hs hnodup
    obtain ⟨-, hmr, hdisj⟩ := List.nodup_append.mp hnodup
    obtain ⟨hleft, -, hright⟩ := (List.append_cons_inj_of_notMem
      (fun hmem => hdisj m hmem m List.mem_cons_self rfl) (List.nodup_cons.mp hmr).1).mp hs
    rw [hsplit, hleft, hright]

/-- A leader with duplicates. -/
theorem avlDelete_leader {fuel : Nat} (hcomp : TotalPreorder comp)
    (h : Sound comp t (as ++ (m, y :: ds) :: bs) born) :
    ∃ t', t.avlDelete fuel m = some t' ∧ Sound comp t' (as ++ (y, ds) :: bs) (born.erase m) ∧
      SameHead t t' := by
  obtain ⟨list, hdel, hcirc⟩ := h.del List.mem_cons_self
  have hm : (m, y :: ds) ∈ as ++ (m, y :: ds) :: bs := List.mem_append_right _ List.mem_cons_self
  have hleader : t.leader m = true := h.leader (m, y :: ds) hm
  have hfollower : t.leader y = false := h.follower (m, y :: ds) hm y List.mem_cons_self
  have hnext : t.list.next m = some y := h.next_leader
  have hdups : t.allowDups = true := by
    by_contra hfalse
    have hnil := h.unique (by simpa using hfalse) (m, y :: ds) hm
    cases hnil
  have hhead : y ≠ t.listHead := by
    intro heq
    apply (List.nodup_cons.mp h.nodup).1
    rw [← heq]
    exact mem_members.mpr ⟨(m, y :: ds), hm, .inr List.mem_cons_self⟩
  have hlast : t.isLast m = false := by simp [AvlTree.isLast, hnext, hhead]
  refine ⟨{ t.promote m y with list := list, count := (t.count + (2 ^ 32 - 1)) % 2 ^ 32 },
    ?_, ?_, rfl, rfl, rfl⟩
  · rw [AvlTree.avlDelete, if_pos hleader, hdups, hlast, hnext]
    simp [hfollower, AvlTree.avlRemove, AvlTree.promote, hdel]
  · have hsound := @Sound.remove _ _ _ comp t
      { t.promote m y with list := list, count := (t.count + (2 ^ 32 - 1)) % 2 ^ 32 }
      as bs born (y :: ds) m m hcomp h List.mem_cons_self rfl rfl rfl
      (by simpa [regroup, AvlTree.promote] using h.takePlace) hcirc rfl
      (by simp [regroup, AvlTree.promote])
      (fun z hz => by
        have hzy : z ≠ y := by simpa [regroup] using hz
        simp [AvlTree.promote, hzy])
    simpa [regroup] using hsound

/-- A duplicate. -/
theorem avlDelete_dup {fuel : Nat} (hcomp : TotalPreorder comp)
    (h : Sound comp t (as ++ (m, ds) :: bs) born) (hx : x ∈ ds) :
    ∃ t', t.avlDelete fuel x = some t' ∧
      Sound comp t' (as ++ (m, ds.erase x) :: bs) (born.erase x) ∧ SameHead t t' := by
  obtain ⟨list, hdel, hcirc⟩ := h.del (List.mem_cons_of_mem m hx)
  have hm : (m, ds) ∈ as ++ (m, ds) :: bs := List.mem_append_right _ List.mem_cons_self
  have hleader : t.leader m = true := h.leader (m, ds) hm
  have hfollower : t.leader x = false := h.follower (m, ds) hm x hx
  have hmx : m ≠ x := by
    rintro rfl
    rw [hleader] at hfollower
    cases hfollower
  have herase : (m :: ds).erase x = m :: ds.erase x := List.erase_cons_tail (by simpa using hmx)
  have htree : Settled t.toSkeleton (as.map Prod.fst ++ m :: bs.map Prod.fst) := by
    simpa using h.tree
  refine ⟨{ t with list := list, count := (t.count + (2 ^ 32 - 1)) % 2 ^ 32 }, ?_, ?_,
    rfl, rfl, rfl⟩
  · simp [AvlTree.avlDelete, hfollower, AvlTree.avlRemove, hdel]
  · have hsound := @Sound.remove _ _ _ comp t
      { t with list := list, count := (t.count + (2 ^ 32 - 1)) % 2 ^ 32 }
      as bs born ds m x hcomp h (List.mem_cons_of_mem m hx) rfl rfl rfl
      (by simpa [herase, regroup] using htree) hcirc rfl (by simpa [herase, regroup] using hleader)
      (fun z _ => rfl)
    simpa [herase, regroup] using hsound

/-- **`avl_delete`** takes a node out of the tree, whatever it is there. -/
theorem avlDelete_spec {fuel : Nat} (hcomp : TotalPreorder comp) (h : Sound comp t gs born)
    (hx : x ∈ born) (hfuel : born.length + 2 < fuel) :
    ∃ t' gs', t.avlDelete fuel x = some t' ∧ Sound comp t' gs' (born.erase x) ∧
      SameHead t t' ∧ members gs' = (members gs).erase x := by
  obtain ⟨⟨m, ds⟩, hp, hxp⟩ := mem_members.mp (h.perm.mem_iff.mpr hx)
  obtain ⟨as, bs, rfl⟩ := List.append_of_mem hp
  have hnodup := (List.nodup_cons.mp h.nodup).2
  rw [members_append, members_cons] at hnodup
  have hxas : x ∉ members as := by
    intro hmem
    refine (List.nodup_append.mp hnodup).2.2 x hmem x ?_ rfl
    rw [← List.cons_append]
    exact List.mem_append_left _ (List.mem_cons.mpr hxp)
  rw [members_append, List.erase_append_right _ hxas, members_cons]
  by_cases hxds : x ∈ ds
  · obtain ⟨t', hdelete, hsound, hsame⟩ := @avlDelete_dup _ _ _ _ _ _ _ _ _ _ _ fuel hcomp h hxds
    have hmx : m ≠ x := by
      rintro rfl
      exact (List.nodup_cons.mp (List.nodup_append.mp hnodup).2.1).1 (List.mem_append_left _ hxds)
    refine ⟨t', _, hdelete, hsound, hsame, ?_⟩
    rw [List.erase_cons_tail (by simpa using hmx), List.erase_append_left _ hxds]
    simp
  · have hxm : x = m := by
      rcases hxp with hxp | hxp
      · exact hxp
      · exact absurd hxp hxds
    subst hxm
    rw [List.erase_cons_head]
    cases ds with
    | nil =>
        obtain ⟨t', hdelete, hsound, hsame⟩ := avlDelete_alone hcomp h hfuel
        exact ⟨t', _, hdelete, hsound, hsame, by simp⟩
    | cons y ds =>
        obtain ⟨t', hdelete, hsound, hsame⟩ :=
          @avlDelete_leader _ _ _ _ _ _ _ _ _ _ _ fuel hcomp h
        exact ⟨t', _, hdelete, hsound, hsame, by simp⟩

end Libubox.Avl
