import Libubox.Lib.Circle
import Mathlib.Data.Set.Insert

/-!
# Several circles in one memory

`Rings` says that the pointers make a circle of each head and its items, and that no node
is in two of them.  An operation on one circle is `Rings.edit`: it says what becomes of that
circle, and that the pointers of other nodes are left.

A circle can be seen from any of its nodes (`Circle.rotate`).  Nodes are put `behind` a
node or `inFront` of it, and how that looks from the head follows from how it looks from the
node (`Circle.exists_view`).
-/

namespace Circles

variable {ν : Type*}

/-! ## Views -/

section Views

variable {l l' : Links ν} {h x : ν} {xs as bs : List ν}

/-- The same circle from another node. -/
theorem Circle.rotate (hcirc : Circle l h (as ++ x :: bs)) : Circle l x (bs ++ h :: as) := by
  obtain ⟨has, hbs, hmeet⟩ := hcirc.cut
  have hxs : (h :: as ++ [x]).IsChain l.Follows := by
    refine List.isChain_append.mpr ⟨has, .singleton x, fun a ha b hb => ?_⟩
    cases hb
    exact hmeet a ha x rfl
  obtain ⟨hfront, hlast, hend⟩ := List.isChain_append.mp hbs
  have hlist : x :: (bs ++ h :: as) ++ [x] = (x :: bs) ++ (h :: as ++ [x]) := by simp
  rw [Circle, hlist]
  refine List.isChain_append.mpr ⟨hfront, hxs, fun a ha b hb => ?_⟩
  cases hb
  exact hend a ha h rfl

variable [DecidableEq ν]

/-- The nodes of a circle when `ws` are put behind `pos`. -/
def behind (pos : ν) (ws : List ν) (h : ν) (xs : List ν) : List ν :=
  if pos = h then ws ++ xs else xs.flatMap fun y => if y = pos then y :: ws else [y]

/-- The nodes of a circle when `ws` are put in front of `pos`. -/
def inFront (pos : ν) (ws : List ν) (h : ν) (xs : List ν) : List ν :=
  if pos = h then xs ++ ws else xs.flatMap fun y => if y = pos then ws ++ [y] else [y]

/-- Nothing is put where `pos` is not. -/
theorem flatMap_of_notMem {f : ν → List ν} {pos : ν} (hx : pos ∉ xs) :
    (xs.flatMap fun y => if y = pos then f y else [y]) = xs := by
  induction xs with
  | nil => rfl
  | cons y xs ih =>
      rw [List.mem_cons, not_or] at hx
      rw [List.flatMap_cons, if_neg (Ne.symm hx.1), ih hx.2, List.singleton_append]

theorem flatMap_mid {f : ν → List ν} {pos : ν} (hnodup : (as ++ pos :: bs).Nodup) :
    ((as ++ pos :: bs).flatMap fun y => if y = pos then f y else [y]) = as ++ (f pos ++ bs) := by
  obtain ⟨-, hrest, hdisj⟩ := List.nodup_append.mp hnodup
  have has : pos ∉ as := fun hmem => hdisj pos hmem pos List.mem_cons_self rfl
  rw [List.flatMap_append, List.flatMap_cons, if_pos rfl, flatMap_of_notMem has,
    flatMap_of_notMem (List.nodup_cons.mp hrest).1]

variable {pos : ν} {ws : List ν}

theorem behind_of_notMem (hpos : pos ∉ h :: xs) : behind pos ws h xs = xs := by
  rw [List.mem_cons, not_or] at hpos
  rw [behind, if_neg hpos.1, flatMap_of_notMem hpos.2]

theorem inFront_of_notMem (hpos : pos ∉ h :: xs) : inFront pos ws h xs = xs := by
  rw [List.mem_cons, not_or] at hpos
  rw [inFront, if_neg hpos.1, flatMap_of_notMem hpos.2]

theorem behind_nil : behind pos [] h xs = xs := by
  rw [behind]
  split
  · rfl
  · simp

theorem inFront_nil : inFront pos [] h xs = xs := by
  rw [inFront]
  split
  · exact List.append_nil xs
  · simp

theorem mem_behind {y : ν} (hy : y ∈ behind pos ws h xs) : y ∈ xs ∨ y ∈ ws := by
  rw [behind] at hy
  split at hy
  · exact (List.mem_append.mp hy).symm
  · obtain ⟨z, hz, hyz⟩ := List.mem_flatMap.mp hy
    split at hyz
    · rcases List.mem_cons.mp hyz with rfl | hyw
      · exact .inl hz
      · exact .inr hyw
    · rw [List.mem_singleton.mp hyz]
      exact .inl hz

theorem mem_inFront {y : ν} (hy : y ∈ inFront pos ws h xs) : y ∈ xs ∨ y ∈ ws := by
  rw [inFront] at hy
  split at hy
  · exact List.mem_append.mp hy
  · obtain ⟨z, hz, hyz⟩ := List.mem_flatMap.mp hy
    split at hyz
    · rcases List.mem_append.mp hyz with hyw | hyz
      · exact .inr hyw
      · rw [List.mem_singleton.mp hyz]
        exact .inl hz
    · rw [List.mem_singleton.mp hyz]
      exact .inl hz

/-- A circle, as it looks from `pos`. -/
theorem Circle.exists_view (hcirc : Circle l h xs) (hnodup : (h :: xs).Nodup)
    (hpos : pos ∈ h :: xs) :
    ∃ zs, (pos :: zs).Perm (h :: xs) ∧ Circle l pos zs ∧
      (∀ ws, (behind pos ws h xs).Perm (ws ++ xs) ∧ (inFront pos ws h xs).Perm (ws ++ xs)) ∧
      ∀ (l' : Links ν) ws, (Circle l' pos (ws ++ zs) → Circle l' h (behind pos ws h xs)) ∧
        (Circle l' pos (zs ++ ws) → Circle l' h (inFront pos ws h xs)) := by
  obtain ⟨hh, hxs⟩ := List.nodup_cons.mp hnodup
  rcases List.mem_cons.mp hpos with rfl | hmem
  · refine ⟨xs, .refl _, hcirc, fun ws => ?_, fun l' ws => ?_⟩
    · rw [behind, inFront, if_pos rfl, if_pos rfl]
      exact ⟨.refl _, List.perm_append_comm⟩
    · rw [behind, inFront, if_pos rfl, if_pos rfl]
      exact ⟨id, id⟩
  · have hne : pos ≠ h := fun heq => hh (heq ▸ hmem)
    obtain ⟨as, bs, rfl⟩ := List.append_of_mem hmem
    have hbehind : ∀ ws, behind pos ws h (as ++ pos :: bs) = as ++ pos :: (ws ++ bs) := by
      intro ws
      rw [behind, if_neg hne, flatMap_mid hxs, List.cons_append]
    have hinFront : ∀ ws, inFront pos ws h (as ++ pos :: bs) = as ++ ws ++ pos :: bs := by
      intro ws
      rw [inFront, if_neg hne, flatMap_mid hxs]
      simp
    refine ⟨bs ++ h :: as, ?_, hcirc.rotate, fun ws => ?_, fun l' ws => ⟨fun h' => ?_, fun h' => ?_⟩⟩
    · have hswap : (pos :: bs ++ h :: as).Perm (h :: as ++ pos :: bs) := List.perm_append_comm
      simpa using hswap
    · rw [hbehind, hinFront]
      constructor
      · have hmove : (as ++ ([pos] ++ ws) ++ bs).Perm (ws ++ (as ++ [pos]) ++ bs) := by
          refine List.Perm.append_right bs ?_
          rw [← List.append_assoc]
          exact List.perm_append_comm
        simpa using hmove
      · have hmove : (as ++ ws ++ (pos :: bs)).Perm (ws ++ as ++ (pos :: bs)) :=
          List.perm_append_comm.append_right _
        simpa using hmove
    · rw [hbehind]
      rw [← List.append_assoc] at h'
      exact h'.rotate
    · rw [hinFront]
      rw [List.append_assoc, List.cons_append] at h'
      exact h'.rotate

end Views

/-! ## Rings -/

/-- The heads of some circles, and the nodes in them. -/
structure HeadedLists (ν : Type*) where
  heads : Set ν
  items : ν → List ν

/-- The node is in a circle. -/
def HeadedLists.Has (s : HeadedLists ν) (x : ν) : Prop := ∃ h ∈ s.heads, x ∈ h :: s.items h

/-- The pointers make these circles, and no others share nodes with them. -/
structure Rings (l : Links ν) (s : HeadedLists ν) : Prop where
  circle : ∀ h ∈ s.heads, Circle l h (s.items h)
  nodup : ∀ h ∈ s.heads, (h :: s.items h).Nodup
  apart : ∀ h ∈ s.heads, ∀ k ∈ s.heads, ∀ y ∈ h :: s.items h, y ∈ k :: s.items k → h = k

section Rings

variable {l l' : Links ν} {s : HeadedLists ν} {items' : ν → List ν} {k : ν} {ws : List ν}

/-- A head may be forgotten. -/
theorem Rings.restrict (h : Rings l s) {heads' : Set ν} (hsub : heads' ⊆ s.heads) :
    Rings l ⟨heads', s.items⟩ where
  circle g hg := h.circle g (hsub hg)
  nodup g hg := h.nodup g (hsub hg)
  apart g hg k hk := h.apart g (hsub hg) k (hsub hk)

/-- The items of other nodes do not matter. -/
theorem Rings.congr (h : Rings l s) (hitems : ∀ g ∈ s.heads, items' g = s.items g) :
    Rings l ⟨s.heads, items'⟩ where
  circle g hg := by
    show Circle l g (items' g)
    rw [hitems g hg]
    exact h.circle g hg
  nodup g hg := by
    show (g :: items' g).Nodup
    rw [hitems g hg]
    exact h.nodup g hg
  apart g hg k hk y hy hy' := by
    change y ∈ g :: items' g at hy
    change y ∈ k :: items' k at hy'
    rw [hitems g hg] at hy
    rw [hitems k hk] at hy'
    exact h.apart g hg k hk y hy hy'

/-- One circle changes.  It takes in nodes of `ws`, which were in none. -/
theorem Rings.edit (h : Rings l s) (hk : k ∈ s.heads) (hfree : ∀ w ∈ ws, ¬s.Has w)
    (hmem : ∀ y ∈ items' k, y ∈ s.items k ∨ y ∈ ws) (hnodup : (k :: items' k).Nodup)
    (hothers : ∀ g ∈ s.heads, g ≠ k → items' g = s.items g) (hcirc : Circle l' k (items' k))
    (hframe : ∀ y, y ∉ ws → y ∉ k :: s.items k → l'.next y = l.next y ∧ l'.prev y = l.prev y) :
    Rings l' ⟨s.heads, items'⟩ where
  circle g hg := by
    by_cases hgk : g = k
    · rw [hgk]
      exact hcirc
    · show Circle l' g (items' g)
      rw [hothers g hg hgk]
      refine (h.circle g hg).frame fun y hy => hframe y (fun hw => ?_) fun hyk => ?_
      · exact hfree y hw ⟨g, hg, hy⟩
      · exact hgk (h.apart g hg k hk y hy hyk)
  nodup g hg := by
    by_cases hgk : g = k
    · rw [hgk]
      exact hnodup
    · show (g :: items' g).Nodup
      rw [hothers g hg hgk]
      exact h.nodup g hg
  apart g hg g' hg' y hy hy' := by
    have hwhere : ∀ a ∈ s.heads, y ∈ a :: items' a → y ∈ a :: s.items a ∨ a = k ∧ y ∈ ws := by
      intro a ha hya
      by_cases hak : a = k
      · rw [hak] at hya ⊢
        rcases List.mem_cons.mp hya with rfl | hya
        · exact .inl List.mem_cons_self
        · exact (hmem y hya).imp (List.mem_cons_of_mem k) fun hw => ⟨rfl, hw⟩
      · rw [hothers a ha hak] at hya
        exact .inl hya
    rcases hwhere g hg hy with hin | ⟨rfl, hw⟩
    · rcases hwhere g' hg' hy' with hin' | ⟨-, hw⟩
      · exact h.apart g hg g' hg' y hin hin'
      · exact absurd ⟨g, hg, hin⟩ (hfree y hw)
    · rcases hwhere g' hg' hy' with hin' | ⟨rfl, -⟩
      · exact absurd ⟨g', hg', hin'⟩ (hfree y hw)
      · rfl

/-- Other pointers change. -/
theorem Rings.frame (h : Rings l s)
    (hframe : ∀ y, s.Has y → l'.next y = l.next y ∧ l'.prev y = l.prev y) : Rings l' s where
  circle g hg := (h.circle g hg).frame fun y hy => hframe y ⟨g, hg, hy⟩
  nodup := h.nodup
  apart := h.apart

variable [DecidableEq ν]

/-- A node outside of all circles gets one for itself. -/
theorem Rings.initHead (h : Rings l s) {x : ν} (hx : ¬s.Has x) :
    Rings (l.initHead x) ⟨insert x s.heads, Function.update s.items x []⟩ := by
  have hne : ∀ g ∈ s.heads, g ≠ x := by
    rintro g hg rfl
    exact hx ⟨g, hg, List.mem_cons_self⟩
  have hkeep : ∀ g ∈ s.heads, Function.update s.items x [] g = s.items g := fun g hg =>
    Function.update_of_ne (hne g hg) ..
  have hrest : Rings (l.initHead x) s := by
    refine h.frame fun y hy => ?_
    have hyx : y ≠ x := fun heq => hx (heq ▸ hy)
    exact ⟨Function.update_of_ne hyx .., Function.update_of_ne hyx ..⟩
  refine ⟨?_, ?_, ?_⟩
  · rintro g (rfl | hg)
    · show Circle _ g (Function.update s.items g [] g)
      rw [Function.update_self]
      exact .initHead l g
    · show Circle _ g (Function.update s.items x [] g)
      rw [hkeep g hg]
      exact hrest.circle g hg
  · rintro g (rfl | hg)
    · show (g :: Function.update s.items g [] g).Nodup
      rw [Function.update_self]
      exact List.nodup_singleton g
    · show (g :: Function.update s.items x [] g).Nodup
      rw [hkeep g hg]
      exact h.nodup g hg
  · have hself : ∀ y, y ∈ x :: Function.update s.items x [] x → y = x := by
      intro y hy
      rw [Function.update_self] at hy
      exact List.mem_singleton.mp hy
    rintro g (rfl | hg) k (rfl | hk) y hy hy'
    · rfl
    · rw [hself y hy] at hy'
      change g ∈ k :: Function.update s.items g [] k at hy'
      rw [hkeep k hk] at hy'
      exact absurd ⟨k, hk, hy'⟩ hx
    · rw [hself y hy'] at hy
      change k ∈ g :: Function.update s.items k [] g at hy
      rw [hkeep g hg] at hy
      exact absurd ⟨g, hg, hy⟩ hx
    · change y ∈ g :: Function.update s.items x [] g at hy
      change y ∈ k :: Function.update s.items x [] k at hy'
      rw [hkeep g hg] at hy
      rw [hkeep k hk] at hy'
      exact h.apart g hg k hk y hy hy'

end Rings

end Circles
