import Mathlib.Data.List.Chain
import Mathlib.Data.List.Nodup
import Mathlib.Logic.Function.Basic

/-!
# Circles of nodes

Circular doubly linked lists.  `Circle l h xs` says that from the node `h` the
`next` pointers lead through the nodes `xs` back to `h`, and the `prev` pointers
the other way round.  `Circle.add` and `Circle.del` are the operations on the ring
they change, `Circle.frame` is for the other rings.
-/

namespace Circles

variable {ν : Type*}

/-- The pointers of all nodes. -/
structure Links (ν : Type*) where
  next : ν → Option ν
  prev : ν → Option ν

/-- `b` follows `a`. -/
def Links.Follows (l : Links ν) (a b : ν) : Prop := l.next a = some b ∧ l.prev b = some a

/-- The circle of `h` and the nodes `xs`. -/
def Circle (l : Links ν) (h : ν) (xs : List ν) : Prop := (h :: xs ++ [h]).IsChain l.Follows

variable {l l' : Links ν} {h x : ν} {xs as bs : List ν}

/-- Two chains of nodes that meet. -/
theorem Circle.cut (hcirc : Circle l h (as ++ bs)) :
    (h :: as).IsChain l.Follows ∧ (bs ++ [h]).IsChain l.Follows ∧
      ∀ a ∈ (h :: as).getLast?, ∀ b ∈ (bs ++ [h]).head?, l.Follows a b := by
  have hlist : h :: (as ++ bs) ++ [h] = (h :: as) ++ (bs ++ [h]) := by simp
  rw [Circle, hlist] at hcirc
  exact List.isChain_append.mp hcirc

theorem Circle.join (has : (h :: as).IsChain l.Follows) (hbs : (bs ++ [h]).IsChain l.Follows)
    (hmeet : ∀ a ∈ (h :: as).getLast?, ∀ b ∈ (bs ++ [h]).head?, l.Follows a b) :
    Circle l h (as ++ bs) := by
  have hlist : h :: (as ++ bs) ++ [h] = (h :: as) ++ (bs ++ [h]) := by simp
  rw [Circle, hlist]
  exact List.isChain_append.mpr ⟨has, hbs, hmeet⟩

/-- The node behind the first part of a circle and the one in front of the rest. -/
theorem Circle.meet (hcirc : Circle l h (as ++ bs)) :
    ∃ a b, (h :: as).getLast? = some a ∧ (bs ++ [h]).head? = some b ∧ l.Follows a b := by
  obtain ⟨-, -, hmeet⟩ := hcirc.cut
  have ha : (h :: as).getLast? = some ((h :: as).getLast (List.cons_ne_nil h as)) :=
    List.getLast?_eq_some_getLast _
  have hne : bs ++ [h] ≠ [] := by simp
  have hb : (bs ++ [h]).head? = some ((bs ++ [h]).head hne) := List.head?_eq_some_head hne
  exact ⟨_, _, ha, hb, hmeet _ ha _ hb⟩

/-- Where the pointer of the head leads. -/
theorem Circle.next_head (hcirc : Circle l h xs) : l.next h = (xs ++ [h]).head? := by
  obtain ⟨a, b, ha, hb, hab⟩ := @Circle.meet _ l h [] xs hcirc
  have hah : h = a := Option.some.inj ha
  rw [hah, hab.1, ← hah, hb]

theorem Circle.prev_head (hcirc : Circle l h xs) : l.prev h = (h :: xs).getLast? := by
  have hcirc' : Circle l h (xs ++ []) := by rwa [List.append_nil]
  obtain ⟨a, b, ha, hb, hab⟩ := hcirc'.meet
  cases hb
  rw [hab.2, ha]

/-- Where the pointer of a node in the middle leads. -/
theorem Circle.next_mem (hcirc : Circle l h (as ++ x :: bs)) : l.next x = (bs ++ [h]).head? := by
  have hlist : as ++ x :: bs = (as ++ [x]) ++ bs := by simp
  rw [hlist] at hcirc
  obtain ⟨a, b, ha, hb, hab⟩ := hcirc.meet
  have hax : a = x := by
    rw [← List.cons_append, List.getLast?_append] at ha
    exact (Option.some.inj ha).symm
  rw [← hax, hab.1, hb]

theorem Circle.prev_mem (hcirc : Circle l h (as ++ x :: bs)) : l.prev x = (h :: as).getLast? := by
  obtain ⟨a, b, ha, hb, hab⟩ := hcirc.meet
  cases hb
  rw [hab.2, ha]

/-- The pointers in the other direction. -/
def Links.flip (l : Links ν) : Links ν := ⟨l.prev, l.next⟩

theorem Circle.flip (hcirc : Circle l h xs) : Circle l.flip h xs.reverse := by
  have hlist : h :: xs.reverse ++ [h] = (h :: xs ++ [h]).reverse := by simp
  rw [Circle, hlist, List.isChain_reverse]
  exact List.IsChain.imp (fun a b hab => ⟨hab.2, hab.1⟩) hcirc

/-- Every pointer of a circle leads to a node. -/
theorem Circle.exists_next (hcirc : Circle l h xs) (hx : x ∈ h :: xs) : ∃ n, l.next x = some n := by
  have hhead : ∀ ys : List ν, ∃ n, (ys ++ [h]).head? = some n := by
    intro ys
    cases ys with
    | nil => exact ⟨h, rfl⟩
    | cons y ys => exact ⟨y, rfl⟩
  rcases List.mem_cons.mp hx with rfl | hx
  · rw [hcirc.next_head]
    exact hhead xs
  · obtain ⟨as, bs, rfl⟩ := List.append_of_mem hx
    rw [hcirc.next_mem]
    exact hhead bs

/-- In front of a node stands another one than in front of the head. -/
theorem Circle.exists_prev (hcirc : Circle l h (as ++ x :: bs))
    (hnodup : (h :: (as ++ x :: bs)).Nodup) :
    ∃ p last, l.prev x = some p ∧ l.prev h = some last ∧ p ≠ last := by
  have hp := hcirc.prev_mem
  have hlast := hcirc.prev_head
  rw [List.getLast?_eq_some_getLast (List.cons_ne_nil _ _)] at hp
  rw [← List.cons_append, List.getLast?_append_cons,
    List.getLast?_eq_some_getLast (List.cons_ne_nil _ _)] at hlast
  refine ⟨_, _, hp, hlast, ?_⟩
  rw [← List.cons_append] at hnodup
  exact (List.nodup_append.mp hnodup).2.2 _ (List.getLast_mem _) _ (List.getLast_mem _)

/-- The frame rule. -/
theorem Circle.frame (hcirc : Circle l h xs) (heq : ∀ y ∈ h :: xs, l'.next y = l.next y ∧
    l'.prev y = l.prev y) : Circle l' h xs := by
  have hmem : ∀ y ∈ h :: xs ++ [h], y ∈ h :: xs := by
    intro y hy
    rcases List.mem_append.mp hy with hy | hy
    · exact hy
    · rw [List.mem_singleton.mp hy]
      exact List.mem_cons_self
  refine List.IsChain.imp_of_mem_imp ?_ hcirc
  intro a b ha hb hab
  exact ⟨(heq a (hmem a ha)).1.trans hab.1, (heq b (hmem b hb)).2.trans hab.2⟩

/-- There is one list of nodes in a circle. -/
theorem Circle.unique {ys : List ν} (hxs : Circle l h xs) (hys : Circle l h ys) (hx : h ∉ xs)
    (hy : h ∉ ys) : xs = ys := by
  have hall : ∀ (a : ν) (xs ys : List ν), (a :: xs ++ [h]).IsChain l.Follows →
      (a :: ys ++ [h]).IsChain l.Follows → h ∉ xs → h ∉ ys → xs = ys := by
    intro a xs
    induction xs generalizing a with
    | nil =>
        intro ys hxs hys _ hy
        cases ys with
        | nil => rfl
        | cons y ys =>
            have h₁ := (List.isChain_cons.mp hxs).1 h rfl
            have h₂ := (List.isChain_cons.mp hys).1 y rfl
            have hhy : h = y := Option.some.inj (h₁.1.symm.trans h₂.1)
            exact absurd (hhy ▸ List.mem_cons_self) hy
    | cons x xs ih =>
        intro ys hxs hys hx hy
        have h₁ := (List.isChain_cons.mp hxs).1 x rfl
        cases ys with
        | nil =>
            have h₂ := (List.isChain_cons.mp hys).1 h rfl
            have hxh : x = h := Option.some.inj (h₁.1.symm.trans h₂.1)
            exact absurd (hxh ▸ List.mem_cons_self) hx
        | cons y ys =>
            have h₂ := (List.isChain_cons.mp hys).1 y rfl
            obtain rfl : x = y := Option.some.inj (h₁.1.symm.trans h₂.1)
            rw [ih x ys (List.isChain_cons.mp hxs).2 (List.isChain_cons.mp hys).2
              (fun hmem => hx (List.mem_cons_of_mem x hmem))
              fun hmem => hy (List.mem_cons_of_mem x hmem)]
  exact hall h xs ys hxs hys hx hy

/-- A part of a circle whose last node gets another `next` or whose first node gets
another `prev`. -/
theorem chain_frame {ys : List ν} (hchain : ys.IsChain l.Follows)
    (hnext : ∀ y ∈ ys.dropLast, l'.next y = l.next y)
    (hprev : ∀ y ∈ ys.tail, l'.prev y = l.prev y) : ys.IsChain l'.Follows := by
  induction ys with
  | nil => exact .nil
  | cons a ys ih =>
      cases ys with
      | nil => exact .singleton a
      | cons b ys =>
          obtain ⟨hab, hrest⟩ := List.isChain_cons_cons.mp hchain
          refine List.isChain_cons_cons.mpr ⟨⟨?_, ?_⟩, ih hrest ?_ ?_⟩
          · exact (hnext a List.mem_cons_self).trans hab.1
          · exact (hprev b List.mem_cons_self).trans hab.2
          · exact fun y hy => hnext y (List.mem_cons_of_mem a hy)
          · exact fun y hy => hprev y (List.mem_cons_of_mem b hy)

/-- Both parts of a circle stay chains when the pointers between them change. -/
theorem parts_frame {p n : ν} (has : (h :: as).IsChain l.Follows)
    (hbs : (bs ++ [h]).IsChain l.Follows) (hnodup : (h :: (as ++ bs)).Nodup)
    (hp : (h :: as).getLast? = some p) (hn : (bs ++ [h]).head? = some n)
    (hnext : ∀ y ∈ h :: (as ++ bs), y ≠ p → l'.next y = l.next y)
    (hprev : ∀ y ∈ h :: (as ++ bs), y ≠ n → l'.prev y = l.prev y) :
    (h :: as).IsChain l'.Follows ∧ (bs ++ [h]).IsChain l'.Follows := by
  obtain ⟨ys, hys⟩ := List.getLast?_eq_some_iff.mp hp
  obtain ⟨zs, hzs⟩ := List.head?_eq_some_iff.mp hn
  have hleft : ∀ y ∈ h :: as, y ∈ h :: (as ++ bs) := by
    intro y hy
    rw [← List.cons_append]
    exact List.mem_append_left bs hy
  have hright : ∀ y ∈ bs, y ∈ h :: (as ++ bs) := fun y hy =>
    List.mem_cons_of_mem h (List.mem_append_right as hy)
  rw [← List.cons_append] at hnodup
  obtain ⟨hnas, hnbs, hdisj⟩ := List.nodup_append.mp hnodup
  have hpas : p ∈ h :: as := by
    rw [hys]
    exact List.mem_append_right ys List.mem_cons_self
  have hhbs : h ∉ bs := fun hmem => hdisj h List.mem_cons_self h hmem rfl
  constructor
  · apply chain_frame has
    · intro y hy
      apply hnext y (hleft y ((List.dropLast_sublist _).subset hy))
      rw [hys, List.dropLast_concat] at hy
      rw [hys] at hnas
      exact (List.nodup_append.mp hnas).2.2 y hy p List.mem_cons_self
    · intro y hy
      apply hprev y (hleft y (List.mem_cons_of_mem h hy))
      intro heq
      have hmem : n ∈ bs ++ [h] := hzs ▸ List.mem_cons_self
      rcases List.mem_append.mp hmem with hmem | hmem
      · exact hdisj y (List.mem_cons_of_mem h hy) n hmem heq
      · rw [heq, List.mem_singleton.mp hmem] at hy
        exact (List.nodup_cons.mp hnas).1 hy
  · apply chain_frame hbs
    · intro y hy
      rw [List.dropLast_concat] at hy
      exact hnext y (hright y hy) fun heq => hdisj p hpas y hy heq.symm
    · intro y hy
      have hnodup' : (bs ++ [h]).Nodup := by
        refine List.nodup_append.mpr ⟨hnbs, List.nodup_singleton h, ?_⟩
        intro a ha b hb heq
        rw [List.mem_singleton.mp hb] at heq
        exact hhbs (heq ▸ ha)
      apply hprev y
      · rcases List.mem_append.mp (List.mem_of_mem_tail hy) with hy | hy
        · exact hright y hy
        · rw [List.mem_singleton.mp hy]
          exact List.mem_cons_self
      · intro heq
        rw [hzs] at hy hnodup'
        exact (List.nodup_cons.mp hnodup').1 (heq ▸ hy)

/-! ## Operations -/

variable [DecidableEq ν]

/-- `new` goes between `prev` and `next`. -/
def Links.add (l : Links ν) (new prev next : ν) : Links ν :=
  { next := Function.update (Function.update l.next new (some next)) prev (some new)
    prev := Function.update (Function.update l.prev next (some new)) new (some prev) }

/-- The neighbours of `entry` are linked, and its own pointers are null then. -/
def Links.unlink (l : Links ν) (entry prev next : ν) : Links ν :=
  { next := Function.update (Function.update l.next prev (some next)) entry none
    prev := Function.update (Function.update l.prev next (some prev)) entry none }

/-- `entry` is taken out. -/
def Links.del (l : Links ν) (entry : ν) : Option (Links ν) :=
  (l.next entry).bind fun next => (l.prev entry).map fun prev => l.unlink entry prev next

/-- `h` is alone in its circle. -/
def Links.initHead (l : Links ν) (h : ν) : Links ν :=
  { next := Function.update l.next h (some h), prev := Function.update l.prev h (some h) }

theorem Circle.initHead (l : Links ν) (h : ν) : Circle (l.initHead h) h [] := by
  simp [Circle, Links.Follows, Links.initHead]

/-- A node goes between two neighbours in a circle. -/
theorem Circle.add {p n : ν} (hcirc : Circle l h (as ++ bs)) (hnodup : (h :: (as ++ bs)).Nodup)
    (hx : x ∉ h :: (as ++ bs)) (hp : (h :: as).getLast? = some p)
    (hn : (bs ++ [h]).head? = some n) : Circle (l.add x p n) h (as ++ x :: bs) := by
  obtain ⟨has, hbs, -⟩ := hcirc.cut
  have hmem : ∀ y ∈ h :: (as ++ bs), y ≠ x := fun y hy heq => hx (heq ▸ hy)
  have hmid : ∀ y, y ∈ h :: as ∨ y ∈ bs ++ [h] → y ∈ h :: (as ++ bs) := by
    intro y hy
    simp only [List.mem_cons, List.mem_append, List.not_mem_nil, or_false] at hy ⊢
    tauto
  have hpx : p ≠ x := hmem p (hmid p (.inl (List.mem_of_getLast? hp)))
  have hnx : n ≠ x := hmem n (hmid n (.inr (List.mem_of_head? hn)))
  obtain ⟨has', hbs'⟩ := @parts_frame _ l (l.add x p n) h as bs p n has hbs hnodup hp hn
    (fun y hy hyp => by simp [Links.add, hyp, hmem y hy])
    (fun y hy hyn => by simp [Links.add, hyn, hmem y hy])
  refine .join has' ?_ ?_
  · refine List.isChain_cons.mpr ⟨?_, hbs'⟩
    intro b hb
    obtain rfl : n = b := Option.some.inj (hn.symm.trans hb)
    simp [Links.Follows, Links.add, hpx.symm, hnx]
  · intro a ha b hb
    rw [hp] at ha
    cases ha
    cases hb
    simp [Links.Follows, Links.add]

/-- The nodes from `first` to `last` go between `prev` and `next`. -/
def Links.splice (l : Links ν) (first last prev next : ν) : Links ν :=
  { next := Function.update (Function.update l.next prev (some first)) last (some next)
    prev := Function.update (Function.update l.prev first (some prev)) next (some last) }

/-- A chain of nodes goes between two neighbours in a circle. -/
theorem Circle.splice {ys : List ν} {p n first last : ν} (hcirc : Circle l h (as ++ bs))
    (hys : ys.IsChain l.Follows) (hnodup : (h :: (as ++ bs)).Nodup) (hynodup : ys.Nodup)
    (hdisj : ∀ y ∈ ys, y ∉ h :: (as ++ bs)) (hp : (h :: as).getLast? = some p)
    (hn : (bs ++ [h]).head? = some n) (hfirst : ys.head? = some first)
    (hlast : ys.getLast? = some last) :
    Circle (l.splice first last p n) h (as ++ (ys ++ bs)) := by
  obtain ⟨has, hbs, -⟩ := hcirc.cut
  have hmem : ∀ y ∈ h :: (as ++ bs), y ≠ first ∧ y ≠ last := by
    intro y hy
    refine ⟨fun heq => ?_, fun heq => ?_⟩
    · exact hdisj first (List.mem_of_head? hfirst) (heq ▸ hy)
    · exact hdisj last (List.mem_of_getLast? hlast) (heq ▸ hy)
  have hmid : ∀ y, y ∈ h :: as ∨ y ∈ bs ++ [h] → y ∈ h :: (as ++ bs) := by
    intro y hy
    simp only [List.mem_cons, List.mem_append, List.not_mem_nil, or_false] at hy ⊢
    tauto
  have hpmem := hmid p (.inl (List.mem_of_getLast? hp))
  have hnmem := hmid n (.inr (List.mem_of_head? hn))
  have houter : ∀ y ∈ ys, y ≠ p ∧ y ≠ n :=
    fun y hy => ⟨fun heq => hdisj y hy (heq ▸ hpmem), fun heq => hdisj y hy (heq ▸ hnmem)⟩
  obtain ⟨has', hbs'⟩ := @parts_frame _ l (l.splice first last p n) h as bs p n has hbs hnodup hp hn
    (fun y hy hyp => by simp [Links.splice, hyp, (hmem y hy).2])
    (fun y hy hyn => by simp [Links.splice, hyn, (hmem y hy).1])
  -- inside of the chain only `next` of the last and `prev` of the first change
  have hys' : ys.IsChain (l.splice first last p n).Follows := by
    apply chain_frame hys
    · intro y hy
      obtain ⟨zs, rfl⟩ := List.getLast?_eq_some_iff.mp hlast
      rw [List.dropLast_concat] at hy
      have hylast : y ≠ last := (List.nodup_append.mp hynodup).2.2 y hy last List.mem_cons_self
      simp [Links.splice, hylast, (houter y (List.mem_append_left _ hy)).1]
    · intro y hy
      obtain ⟨zs, rfl⟩ := List.head?_eq_some_iff.mp hfirst
      have hyfirst : y ≠ first := fun heq => (List.nodup_cons.mp hynodup).1 (heq ▸ hy)
      simp [Links.splice, hyfirst, (houter y (List.mem_cons_of_mem _ hy)).2]
  have hpl := (hmem p hpmem).2
  have hnf := (hmem n hnmem).1
  refine .join has' ?_ fun a ha b hb => ?_
  · rw [List.append_assoc]
    refine List.isChain_append.mpr ⟨hys', hbs', fun a ha b hb => ?_⟩
    rw [hlast] at ha
    rw [hn] at hb
    cases ha
    cases hb
    simp [Links.Follows, Links.splice]
  · rw [hp] at ha
    have hhead : (ys ++ bs ++ [h]).head? = some first := by
      rw [List.append_assoc, List.head?_append, hfirst]
      rfl
    rw [hhead] at hb
    cases ha
    cases hb
    simp [Links.Follows, Links.splice, hpl, hnf.symm]

/-- A node is taken out of a circle. -/
theorem Circle.del (hcirc : Circle l h (as ++ x :: bs)) (hnodup : (h :: (as ++ x :: bs)).Nodup) :
    ∃ l', l.del x = some l' ∧ Circle l' h (as ++ bs) ∧
      ∀ y ∉ h :: (as ++ x :: bs), l'.next y = l.next y ∧ l'.prev y = l.prev y := by
  obtain ⟨has, hrest, -⟩ := hcirc.cut
  obtain ⟨p, x', hp, hx', hpx⟩ := hcirc.meet
  cases hx'
  obtain ⟨n, hn⟩ : ∃ n, (bs ++ [h]).head? = some n := by
    cases bs <;> exact ⟨_, rfl⟩
  have hnext : l.next x = some n := hcirc.next_mem.trans hn
  have hbs := (List.isChain_cons.mp hrest).2
  have hperm : (h :: (as ++ x :: bs)).Perm (x :: (h :: (as ++ bs))) :=
    (List.perm_middle.cons h).trans (.swap x h _)
  obtain ⟨hx, hnodup'⟩ := List.nodup_cons.mp (hperm.nodup_iff.mp hnodup)
  have hmem : ∀ y ∈ h :: (as ++ bs), y ≠ x := fun y hy heq => hx (heq ▸ hy)
  have hmid : ∀ y, y ∈ h :: as ∨ y ∈ bs ++ [h] → y ∈ h :: (as ++ bs) := by
    intro y hy
    simp only [List.mem_cons, List.mem_append, List.not_mem_nil, or_false] at hy ⊢
    tauto
  have hpmem := hmid p (.inl (List.mem_of_getLast? hp))
  have hnmem := hmid n (.inr (List.mem_of_head? hn))
  refine ⟨l.unlink x p n, ?_, ?_, ?_⟩
  · simp [Links.del, hnext, hpx.2]
  · obtain ⟨has', hbs'⟩ := @parts_frame _ l (l.unlink x p n) h as bs p n has hbs hnodup' hp hn
      (fun y hy hyp => by simp [Links.unlink, hyp, hmem y hy])
      (fun y hy hyn => by simp [Links.unlink, hyn, hmem y hy])
    refine .join has' hbs' ?_
    intro a ha b hb
    rw [hp] at ha
    rw [hn] at hb
    cases ha
    cases hb
    simp [Links.Follows, Links.unlink, hmem p hpmem, hmem n hnmem]
  · intro y hy
    have hy' : y ∉ x :: (h :: (as ++ bs)) := fun hmem => hy (hperm.mem_iff.mpr hmem)
    rw [List.mem_cons, not_or] at hy'
    have hyp : y ≠ p := fun heq => hy'.2 (heq ▸ hpmem)
    have hyn : y ≠ n := fun heq => hy'.2 (heq ▸ hnmem)
    simp [Links.unlink, hy'.1, hyp, hyn]

end Circles
