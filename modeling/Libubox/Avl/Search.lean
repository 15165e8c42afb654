import Libubox.Avl.Tree

/-!
# Searching a tree

Where `avl_find_rec` stops, where the loop of `avl_insert` over the duplicates
stops, and what `avl_find` returns.
-/

namespace Libubox.Avl

open Trees Circles

variable {ν κ : Type*} {comp : κ → κ → Int}

namespace TotalPreorder

theorem swap' (h : TotalPreorder comp) (a b : κ) : 0 < comp a b ↔ comp b a < 0 := (h.swap b a).symm

theorem refl (h : TotalPreorder comp) (a : κ) : comp a a = 0 := by
  have := h.swap a a
  omega

theorem zero_symm (h : TotalPreorder comp) {a b : κ} (hab : comp a b = 0) : comp b a = 0 := by
  have h₁ := h.swap a b
  have h₂ := h.swap' a b
  omega

theorem lt_of_lt_of_le (h : TotalPreorder comp) {a b c : κ} (hab : comp a b < 0)
    (hbc : comp b c ≤ 0) : comp a c < 0 := by
  by_contra hac
  have hca : comp c a ≤ 0 := by
    have := h.swap' c a
    omega
  have hba := h.trans b c a hbc hca
  have := h.swap a b
  omega

theorem lt_of_le_of_lt (h : TotalPreorder comp) {a b c : κ} (hab : comp a b ≤ 0)
    (hbc : comp b c < 0) : comp a c < 0 := by
  by_contra hac
  have hca : comp c a ≤ 0 := by
    have := h.swap' c a
    omega
  have hcb := h.trans c a b hca hab
  have := h.swap b c
  omega

/-- Keys that compare as equal compare alike with the others. -/
theorem neg_congr (h : TotalPreorder comp) {a b c : κ} (hab : comp a b = 0) :
    comp a c < 0 ↔ comp b c < 0 := by
  have hba := h.zero_symm hab
  exact ⟨fun hac => h.lt_of_le_of_lt (by omega) hac, fun hbc => h.lt_of_le_of_lt (by omega) hbc⟩

theorem pos_congr (h : TotalPreorder comp) {a b c : κ} (hab : comp a b = 0) :
    0 < comp a c ↔ 0 < comp b c := by
  have hba := h.zero_symm hab
  rw [h.swap', h.swap']
  exact ⟨fun hca => h.lt_of_lt_of_le hca (by omega), fun hcb => h.lt_of_lt_of_le hcb (by omega)⟩

theorem zero_congr (h : TotalPreorder comp) {a b c : κ} (hab : comp a b = 0) :
    comp a c = 0 ↔ comp b c = 0 := by
  have h₁ := @neg_congr _ _ h a b c hab
  have h₂ := @pos_congr _ _ h a b c hab
  omega

end TotalPreorder

variable {t : AvlTree ν κ} {s : BinTree ν} {key : κ} {p : Option ν} {node : ν}

/-- **`avl_find_rec`** stops at an equal key or where the key belongs. -/
theorem avlFindRec_spec (hcomp : TotalPreorder comp) {fuel : Nat} (hsub : Sub t.toSkeleton p s)
    (hroot : s.root = some node) (hfuel : s.height < fuel)
    (hsorted : s.toList.Pairwise fun x y => comp (t.key x) (t.key y) < 0) :
    ∃ c l m r, s = plug c (.node l m r) ∧
      t.avlFindRec comp key fuel node = some (m, comp key (t.key m)) ∧
      (comp key (t.key m) < 0 → l = .nil) ∧ (0 < comp key (t.key m) → r = .nil) ∧
      (∀ z ∈ before c, 0 < comp key (t.key z)) ∧ ∀ z ∈ after c, comp key (t.key z) < 0 := by
  induction s generalizing p node fuel with
  | nil => cases hroot
  | node l x r ihl ihr =>
      cases hroot
      obtain ⟨fuel, rfl⟩ := Nat.exists_eq_succ_of_ne_zero (Nat.ne_of_gt (Nat.zero_lt_of_lt hfuel))
      obtain ⟨hknot, hl, hr⟩ := hsub
      obtain ⟨hsl, hsr, hcross⟩ := List.pairwise_append.mp hsorted
      obtain ⟨hxr, hsr⟩ := List.pairwise_cons.mp hsr
      simp only [BinTree.height] at hfuel
      by_cases hlt : comp key (t.key x) < 0
      · have hright : ∀ z ∈ x :: r.toList, comp key (t.key z) < 0 := by
          intro z hz
          rcases List.mem_cons.mp hz with rfl | hz
          · exact hlt
          · exact hcomp.lt_of_lt_of_le hlt (by have := hxr z hz; omega)
        cases hroot : l.root with
        | none =>
            refine ⟨[], l, x, r, rfl, ?_, fun _ => BinTree.root_eq_none hroot, fun hgt => ?_, ?_, ?_⟩
            · simp only [AvlTree.avlFindRec, hlt, if_true, hknot, hroot]
            · omega
            · simp [before]
            · simp [after]
        | some y =>
            obtain ⟨c, a, m, b, rfl, hfind, hleft, hgt, hbefore, hafter⟩ :=
              @ihl _ y fuel hl hroot (by omega) hsl
            refine ⟨c ++ [⟨.left, x, r⟩], a, m, b, by rw [plug_append]; rfl, ?_, hleft, hgt, ?_, ?_⟩
            · simp only [AvlTree.avlFindRec, hlt, if_true, hknot, hroot, hfind]
            · simpa [before_append, before] using hbefore
            · rw [after_append]
              intro z hz
              rcases List.mem_append.mp hz with hz | hz
              · exact hafter z hz
              · exact hright z (by simpa [after] using hz)
      · by_cases hgt : 0 < comp key (t.key x)
        · have hleft : ∀ z ∈ l.toList ++ [x], 0 < comp key (t.key z) := by
            intro z hz
            rw [hcomp.swap'] at hgt ⊢
            rcases List.mem_append.mp hz with hz | hz
            · exact hcomp.lt_of_lt_of_le (hcross z hz x List.mem_cons_self) (by omega)
            · rw [List.mem_singleton.mp hz]
              exact hgt
          cases hroot : r.root with
          | none =>
              refine ⟨[], l, x, r, rfl, ?_, fun h => absurd h hlt,
                fun _ => BinTree.root_eq_none hroot, ?_, ?_⟩
              · simp only [AvlTree.avlFindRec, hlt, hgt, if_true, if_false, hknot, hroot]
              · simp [before]
              · simp [after]
          | some y =>
              obtain ⟨c, a, m, b, rfl, hfind, hnil, hnil', hbefore, hafter⟩ :=
                @ihr _ y fuel hr hroot (by omega) hsr
              refine ⟨c ++ [⟨.right, x, l⟩], a, m, b, by rw [plug_append]; rfl, ?_, hnil, hnil',
                ?_, ?_⟩
              · simp only [AvlTree.avlFindRec, hlt, hgt, if_true, if_false, hknot, hroot, hfind]
              · rw [before_append]
                intro z hz
                rcases List.mem_append.mp hz with hz | hz
                · exact hleft z (by simpa [before] using hz)
                · exact hbefore z hz
              · simpa [after_append, after] using hafter
        · refine ⟨[], l, x, r, rfl, ?_, fun h => absurd h hlt, fun h => absurd h hgt, ?_, ?_⟩
          · simp only [AvlTree.avlFindRec, hlt, hgt, if_false]
          · simp [before]
          · simp [after]

/-! ## Groups -/

variable {gs as bs : List (ν × List ν)} {born xs ys ds : List ν} {x m new root : ν}
  {t' : AvlTree ν κ}

@[simp] theorem members_nil : members ([] : List (ν × List ν)) = [] := rfl

@[simp] theorem members_append (as bs : List (ν × List ν)) :
    members (as ++ bs) = members as ++ members bs := List.flatMap_append

@[simp] theorem members_cons (p : ν × List ν) (gs : List (ν × List ν)) :
    members (p :: gs) = p.1 :: (p.2 ++ members gs) := rfl

theorem leaders_sublist (gs : List (ν × List ν)) : (gs.map Prod.fst).Sublist (members gs) := by
  induction gs with
  | nil => exact List.Sublist.refl []
  | cons p gs ih =>
      rw [members_cons, List.map_cons]
      exact (ih.trans (List.sublist_append_right p.2 _)).cons_cons p.1

theorem mem_members : x ∈ members gs ↔ ∃ p ∈ gs, x = p.1 ∨ x ∈ p.2 := by
  simp [members, List.mem_flatMap]

namespace Sound

theorem length_le (h : Sound comp t gs born) : gs.length ≤ born.length := by
  rw [← h.perm.length_eq, ← List.length_map Prod.fst]
  exact (leaders_sublist gs).length_le

/-- The leaders are different nodes. -/
theorem leaders (h : Sound comp t gs born) :
    (gs.map Prod.fst).Nodup ∧ ∀ x ∈ gs.map Prod.fst, x ∈ born := by
  constructor
  · exact (leaders_sublist gs).nodup (List.nodup_cons.mp h.nodup).2
  · intro x hx
    exact h.perm.mem_iff.mp ((leaders_sublist gs).subset hx)

/-- Only the fields of the nodes in the tree matter. -/
theorem congr (h : Sound comp t gs born) (hroot : t'.root = t.root) (hlist : t'.list = t.list)
    (hhead : t'.listHead = t.listHead) (hcount : t'.count = t.count)
    (hdups : t'.allowDups = t.allowDups)
    (hsame : ∀ x ∈ born, t'.knot x = t.knot x ∧ t'.leader x = t.leader x ∧ t'.key x = t.key x) :
    Sound comp t' gs born := by
  have hmem : ∀ p ∈ gs, p.1 ∈ born := fun p hp =>
    h.perm.mem_iff.mp (mem_members.mpr ⟨p, hp, .inl rfl⟩)
  have hmem' : ∀ p ∈ gs, ∀ y ∈ p.2, y ∈ born := fun p hp y hy =>
    h.perm.mem_iff.mp (mem_members.mpr ⟨p, hp, .inr hy⟩)
  refine ⟨?_, ?_, ?_, h.perm, ?_, ?_, ?_, ?_, ?_, ?_⟩
  · obtain ⟨s, ⟨hsroot, hsub⟩, hbal, hs⟩ := h.tree
    refine ⟨s, ⟨hroot.trans hsroot, hsub.congr ?_⟩, hbal, hs⟩
    intro z hz
    rw [hs] at hz
    obtain ⟨p, hp, rfl⟩ := List.mem_map.mp hz
    exact (hsame p.1 (hmem p hp)).1
  · refine h.ordered.imp_of_mem ?_
    intro p q hp hq hpq
    rw [(hsame p.1 (hmem p hp)).2.2, (hsame q.1 (hmem q hq)).2.2]
    exact hpq
  · intro p hp
    rw [h.group p hp]
    apply List.filter_congr
    intro y hy
    rw [(hsame y hy).2.2, (hsame p.1 (hmem p hp)).2.2]
  · intro p hp
    exact (hsame p.1 (hmem p hp)).2.1.trans (h.leader p hp)
  · intro p hp y hy
    exact (hsame y (hmem' p hp y hy)).2.1.trans (h.follower p hp y hy)
  · rw [hlist, hhead]
    exact h.circle
  · rw [hhead]
    exact h.nodup
  · rw [hcount]
    exact h.count
  · rw [hdups]
    exact h.unique

theorem notMem (h : Sound comp t gs born) (hnew : new ∉ born) (hhead : new ≠ t.listHead) :
    new ∉ t.listHead :: members gs := by
  intro hmem
  rcases List.mem_cons.mp hmem with heq | hmem
  · exact hhead heq
  · exact hnew (h.perm.mem_iff.mp hmem)

/-- A node compares as equal with the leader of its group. -/
theorem equal (h : Sound comp t gs born) {p : ν × List ν} (hp : p ∈ gs) {y : ν}
    (hy : y = p.1 ∨ y ∈ p.2) : comp (t.key y) (t.key p.1) = 0 := by
  have hmem : y ∈ p.1 :: p.2 := List.mem_cons.mpr hy
  rw [h.group p hp] at hmem
  simpa using (List.mem_filter.mp hmem).2

theorem root_none (h : Sound comp t gs born) (hroot : t.root = none) : gs = [] := by
  obtain ⟨s, hrep, -, hlist⟩ := h.tree
  cases BinTree.root_eq_none (hrep.1.symm.trans hroot)
  exact List.map_eq_nil_iff.mp hlist.symm

/-- Where a search stops, in terms of the groups: everything in front of the group
there is less than the key, everything behind it greater. -/
theorem place (hcomp : TotalPreorder comp) (h : Sound comp t gs born) {fuel : Nat}
    (hroot : t.root = some root) (hfuel : born.length < fuel) :
    ∃ c l m r as ds bs, Rep t.toSkeleton (plug c (.node l m r)) ∧ (plug c (.node l m r)).Balanced ∧
      gs = as ++ (m, ds) :: bs ∧ as.map Prod.fst = before c ++ l.toList ∧
      bs.map Prod.fst = r.toList ++ after c ∧
      t.avlFindRec comp key fuel root = some (m, comp key (t.key m)) ∧
      (comp key (t.key m) < 0 → l = .nil) ∧ (0 < comp key (t.key m) → r = .nil) ∧
      (∀ p ∈ as, 0 < comp key (t.key p.1)) ∧ ∀ q ∈ bs, comp key (t.key q.1) < 0 := by
  obtain ⟨s, hrep, hbal, hlist⟩ := h.tree
  have hsorted : s.toList.Pairwise fun x y => comp (t.key x) (t.key y) < 0 := by
    rw [hlist, List.pairwise_map]
    exact h.ordered
  have hsize : s.height < fuel := by
    have hle := s.height_le_length
    rw [hlist, List.length_map] at hle
    have := h.length_le
    omega
  obtain ⟨c, l, m, r, rfl, hfind, hleft, hright, hbefore, hafter⟩ :=
    @avlFindRec_spec _ _ _ t s key none root hcomp fuel hrep.2 (hrep.1.symm.trans hroot) hsize hsorted
  have hsplit : gs.map Prod.fst = (before c ++ l.toList) ++ m :: (r.toList ++ after c) := by
    rw [← hlist]
    simp [toList_plug]
  obtain ⟨as, rest, rfl, has, hrest⟩ := List.map_eq_append_iff.mp hsplit
  obtain ⟨q, bs, rfl, rfl, hbs⟩ := List.map_eq_cons_iff.mp hrest
  obtain ⟨-, hqb, haq⟩ := List.pairwise_append.mp h.ordered
  refine ⟨c, l, q.1, r, as, q.2, bs, hrep, hbal, rfl, has, hbs, hfind, hleft, hright, ?_, ?_⟩
  · intro p hp
    by_cases hlt : comp key (t.key q.1) < 0
    · have hmem : p.1 ∈ as.map Prod.fst := List.mem_map_of_mem hp
      rw [has, hleft hlt] at hmem
      exact hbefore p.1 (by simpa using hmem)
    · have hpq := haq p hp q List.mem_cons_self
      have hqk : comp (t.key q.1) key ≤ 0 := by
        have := hcomp.swap' (t.key q.1) key
        omega
      exact (hcomp.swap' key (t.key p.1)).mpr (hcomp.lt_of_lt_of_le hpq hqk)
  · intro p hp
    by_cases hgt : 0 < comp key (t.key q.1)
    · have hmem : p.1 ∈ bs.map Prod.fst := List.mem_map_of_mem hp
      rw [hbs, hright hgt] at hmem
      exact hafter p.1 (by simpa using hmem)
    · exact hcomp.lt_of_le_of_lt (by omega) ((List.pairwise_cons.mp hqb).1 p hp)

/-- The nodes with a key are the group where the search stops, or there are none. -/
theorem filter_eq (hcomp : TotalPreorder comp) (h : Sound comp t (as ++ (m, ds) :: bs) born)
    (has : ∀ p ∈ as, 0 < comp key (t.key p.1)) (hbs : ∀ q ∈ bs, comp key (t.key q.1) < 0) :
    born.filter (fun y => comp key (t.key y) = 0)
      = if comp key (t.key m) = 0 then m :: ds else [] := by
  split
  · next hzero =>
      rw [h.group (m, ds) (by simp)]
      apply List.filter_congr
      intro y _
      have hiff : comp key (t.key y) = 0 ↔ comp (t.key m) (t.key y) = 0 := hcomp.zero_congr hzero
      have hsymm : comp (t.key y) (t.key m) = 0 ↔ comp (t.key m) (t.key y) = 0 :=
        ⟨hcomp.zero_symm, hcomp.zero_symm⟩
      simp only [hiff, hsymm]
  · next hzero =>
      rw [List.filter_eq_nil_iff]
      intro y hy hcontra
      have hyzero : comp key (t.key y) = 0 := by simpa using hcontra
      obtain ⟨p, hp, hyp⟩ := mem_members.mp (h.perm.mem_iff.mpr hy)
      have hpzero := (hcomp.zero_congr hyzero).mpr (h.equal hp hyp)
      rcases List.mem_append.mp hp with hp | hp
      · have := has p hp
        omega
      · rcases List.mem_cons.mp hp with rfl | hp
        · exact hzero hpzero
        · have := hbs p hp
          omega

/-- **`avl_find`** returns the node that was inserted first of those with the key:
the leader. -/
theorem avlFind (hcomp : TotalPreorder comp) (h : Sound comp t gs born) {fuel : Nat}
    (hfuel : born.length < fuel) (key : κ) :
    t.avlFind comp fuel key = some (born.find? fun y => comp key (t.key y) = 0) := by
  rw [AvlTree.avlFind, ← List.head?_filter]
  cases hroot : t.root with
  | none =>
      have hnil : born = [] := by
        have hperm := h.perm
        rw [h.root_none hroot] at hperm
        exact hperm.symm.eq_nil
      rw [hnil]
      rfl
  | some root =>
      obtain ⟨c, l, m, r, as, ds, bs, -, -, rfl, -, -, hfind, -, -, has, hbs⟩ :=
        @place _ _ _ t key gs born root hcomp h fuel hroot hfuel
      simp only [hfind, Option.map_some, filter_eq hcomp h has hbs]
      split
      · rfl
      · rfl

end Sound

/-- The loop of `avl_insert` stops at the last node of a group. -/
theorem groupEnd_spec [DecidableEq ν] {fuel : Nat} (hcirc : Circle t.list t.listHead (xs ++ x :: (ds ++ ys)))
    (hnodup : (t.listHead :: (xs ++ x :: (ds ++ ys))).Nodup) (hds : ∀ y ∈ ds, t.leader y = false)
    (hys : ∀ y, ys.head? = some y → t.leader y = true) (hfuel : ds.length < fuel) :
    ∃ last, t.groupEnd fuel x = some last ∧ (x :: ds).getLast? = some last := by
  induction ds generalizing xs x fuel with
  | nil =>
      obtain ⟨fuel, rfl⟩ := Nat.exists_eq_succ_of_ne_zero (Nat.ne_of_gt hfuel)
      refine ⟨x, ?_, rfl⟩
      have hnext := hcirc.next_mem
      cases ys with
      | nil => simp [AvlTree.groupEnd, AvlTree.isLast, hnext]
      | cons y ys =>
          have hleader := hys y rfl
          have hne : y ≠ t.listHead := by
            rintro rfl
            simp at hnodup
          simp [AvlTree.groupEnd, AvlTree.isLast, hnext, hne, hleader]
  | cons y ds ih =>
      obtain ⟨fuel, rfl⟩ := Nat.exists_eq_succ_of_ne_zero (Nat.ne_of_gt (Nat.zero_lt_of_lt hfuel))
      have hnext := hcirc.next_mem
      have hne : y ≠ t.listHead := by
        rintro rfl
        simp at hnodup
      have hleader := hds y List.mem_cons_self
      have hlist : xs ++ x :: (y :: ds ++ ys) = (xs ++ [x]) ++ y :: (ds ++ ys) := by simp
      rw [hlist] at hcirc hnodup
      obtain ⟨last, hend, hlast⟩ := ih hcirc hnodup
        (fun z hz => hds z (List.mem_cons_of_mem y hz)) (Nat.lt_of_succ_lt_succ hfuel)
      refine ⟨last, ?_, hlast⟩
      simp [AvlTree.groupEnd, AvlTree.isLast, hnext, hne, hleader, hend]

end Libubox.Avl
