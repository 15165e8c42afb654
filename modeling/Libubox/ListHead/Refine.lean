import Libubox.ListHead.List

/-!
# Lists of nodes

What the functions of `list.h` do to the lists that the pointers make (`Rings`), one lemma
for each, and to all of them in a run (`rings_run`): an entry is in one list at a time, at
the place where it was put, whatever calls are made in which order.
-/

namespace Libubox.ListHead

open Circles

variable {ν : Type*} {l : Links ν} {s : HeadedLists ν} {x pos : ν}

/-! ## Insertions -/

/-- The node is in no list, or a list that is empty. -/
def Free (s : HeadedLists ν) (x : ν) : Prop :=
  ∀ h ∈ s.heads, x ∉ s.items h ∧ (x = h → s.items h = [])

/-- `x` as a head is forgotten. -/
def without (s : HeadedLists ν) (x : ν) : HeadedLists ν := ⟨s.heads \ {x}, s.items⟩

theorem Free.not_has (h : Free s x) : ¬(without s x).Has x := by
  rintro ⟨g, ⟨hg, hne⟩, hx⟩
  rcases List.mem_cons.mp hx with heq | hmem
  · exact hne heq.symm
  · exact (h g hg).1 hmem

theorem rings_without (h : Rings l s) (x : ν) : Rings l (without s x) :=
  h.restrict fun _ hg => hg.1

/-- A list that has another node than `x` is not that of `x`. -/
theorem Free.exists_head (h : Free s x) (hpos : s.Has pos) (hne : pos ≠ x) :
    ∃ k ∈ (without s x).heads, pos ∈ k :: s.items k := by
  obtain ⟨k, hk, hmem⟩ := hpos
  refine ⟨k, ⟨hk, fun heq => ?_⟩, hmem⟩
  rw [Set.mem_singleton_iff.mp heq] at hk hmem
  rw [(h x hk).2 rfl] at hmem
  exact hne (List.mem_singleton.mp hmem)

/-- One list takes in the nodes `ws`, as it looks from `pos`. -/
theorem rings_put (h : Rings l s) {k : ν} (hk : k ∈ s.heads) (hpos : pos ∈ k :: s.items k)
    {ws : List ν} (hws : ws.Nodup) (hfree : ∀ w ∈ ws, ¬s.Has w) {l' : Links ν}
    {put : ν → List ν → List ν} (hnone : ∀ g xs, pos ∉ g :: xs → put g xs = xs)
    (hperm : (put k (s.items k)).Perm (ws ++ s.items k)) (hcirc : Circle l' k (put k (s.items k)))
    (hframe : ∀ y, y ∉ ws → y ∉ k :: s.items k → l'.next y = l.next y ∧ l'.prev y = l.prev y) :
    Rings l' ⟨s.heads, fun g => put g (s.items g)⟩ := by
  have hnodup := h.nodup k hk
  refine @Rings.edit _ l l' s (fun g => put g (s.items g)) k ws h hk hfree (fun y hy => ?_) ?_
    (fun g hg hgk => hnone g _ fun hmem => hgk (h.apart g hg k hk pos hmem hpos)) hcirc hframe
  · exact (List.mem_append.mp (hperm.mem_iff.mp hy)).symm
  · have hall : (ws ++ (k :: s.items k)).Nodup := by
      refine List.nodup_append.mpr ⟨hws, hnodup, fun a ha b hb heq => ?_⟩
      exact hfree a ha ⟨k, hk, heq ▸ hb⟩
    exact ((hperm.cons k).trans List.perm_middle.symm).nodup_iff.mpr hall

variable [DecidableEq ν]

/-- **`list_add`** puts an entry behind a head or another entry. -/
theorem listAdd_spec (h : Rings l s) (hx : Free s x) (hpos : s.Has pos) (hne : pos ≠ x) :
    ∃ l', listAdd l x pos = some l' ∧
      Rings l' ⟨s.heads \ {x}, fun g => behind pos [x] g (s.items g)⟩ := by
  obtain ⟨k, hk, hmem⟩ := hx.exists_head hpos hne
  have hrest := rings_without h x
  have hnodup := hrest.nodup k hk
  obtain ⟨zs, hperm, hcirc, hput, hback⟩ := (hrest.circle k hk).exists_view hnodup hmem
  obtain ⟨n, hn⟩ : ∃ n, (zs ++ [pos]).head? = some n := by
    cases zs <;> exact ⟨_, rfl⟩
  have hnext : l.next pos = some n := hcirc.next_head.trans hn
  have hznodup : (pos :: zs).Nodup := hperm.nodup_iff.mpr hnodup
  have hxz : x ∉ pos :: zs := fun hin => hx.not_has ⟨k, hk, hperm.mem_iff.mp hin⟩
  have hadded := @Circle.add _ l pos x [] zs _ pos n hcirc hznodup hxz rfl hn
  refine ⟨l.add x pos n, by rw [listAdd, hnext]; rfl, ?_⟩
  refine rings_put hrest hk hmem (List.nodup_singleton x) ?_ (fun g xs => behind_of_notMem)
    (hput [x]).1 ((hback _ [x]).1 hadded) fun y hy hyk => ?_
  · rintro w hw
    rw [List.mem_singleton.mp hw]
    exact hx.not_has
  · have hyx : y ≠ x := fun heq => hy (heq ▸ List.mem_singleton_self _)
    have hnmem : n ∈ pos :: zs := by
      have := List.mem_of_head? hn
      simpa [or_comm] using this
    have hyp : y ≠ pos := fun heq => hyk (heq ▸ hmem)
    have hyn : y ≠ n := fun heq => hyk (heq ▸ hperm.mem_iff.mp hnmem)
    simp [Links.add, hyx, hyp, hyn]

/-- **`list_add_tail`** puts an entry in front of a head or another entry. -/
theorem listAddTail_spec (h : Rings l s) (hx : Free s x) (hpos : s.Has pos) (hne : pos ≠ x) :
    ∃ l', listAddTail l x pos = some l' ∧
      Rings l' ⟨s.heads \ {x}, fun g => inFront pos [x] g (s.items g)⟩ := by
  obtain ⟨k, hk, hmem⟩ := hx.exists_head hpos hne
  have hrest := rings_without h x
  have hnodup := hrest.nodup k hk
  obtain ⟨zs, hperm, hcirc, hput, hback⟩ := (hrest.circle k hk).exists_view hnodup hmem
  obtain ⟨p, hp⟩ : ∃ p, (pos :: zs).getLast? = some p :=
    ⟨_, List.getLast?_eq_some_getLast (List.cons_ne_nil pos zs)⟩
  have hprev : l.prev pos = some p := hcirc.prev_head.trans hp
  have hznodup : (pos :: (zs ++ [])).Nodup := by
    rw [List.append_nil]
    exact hperm.nodup_iff.mpr hnodup
  have hxz : x ∉ pos :: (zs ++ []) := by
    rw [List.append_nil]
    exact fun hin => hx.not_has ⟨k, hk, hperm.mem_iff.mp hin⟩
  have hcirc' : Circle l pos (zs ++ []) := by rwa [List.append_nil]
  have hadded := hcirc'.add hznodup hxz hp rfl
  refine ⟨l.add x p pos, by rw [listAddTail, hprev]; rfl, ?_⟩
  refine rings_put hrest hk hmem (List.nodup_singleton x) ?_ (fun g xs => inFront_of_notMem)
    (hput [x]).2 ((hback _ [x]).2 hadded) fun y hy hyk => ?_
  · rintro w hw
    rw [List.mem_singleton.mp hw]
    exact hx.not_has
  · have hyx : y ≠ x := fun heq => hy (heq ▸ List.mem_singleton_self _)
    have hyp : y ≠ pos := fun heq => hyk (heq ▸ hmem)
    have hyl : y ≠ p := fun heq => hyk (heq ▸ hperm.mem_iff.mp (List.mem_of_getLast? hp))
    simp [Links.add, hyx, hyp, hyl]

/-! ## Deletions -/

/-- The node is an entry of a list, or a list of its own that is empty. -/
def Linked (s : HeadedLists ν) (x : ν) : Prop :=
  (∃ h ∈ s.heads, x ∈ s.items h) ∨ x ∈ s.heads ∧ s.items x = []

/-- The lists without `x`. -/
def erased (s : HeadedLists ν) (x : ν) : HeadedLists ν := ⟨s.heads \ {x}, fun g => (s.items g).erase x⟩

theorem not_has_erased (h : Rings l s) (x : ν) : ¬(erased s x).Has x := by
  rintro ⟨g, ⟨hg, hne⟩, hmem⟩
  rcases List.mem_cons.mp hmem with heq | hmem
  · exact hne heq.symm
  · exact ((List.nodup_cons.mp (h.nodup g hg)).2.mem_erase_iff.mp hmem).1 rfl

theorem free_erased (h : Rings l s) (x : ν) : Free (erased s x) x := by
  intro g hg
  refine ⟨fun hmem => not_has_erased h x ⟨g, hg, List.mem_cons_of_mem g hmem⟩, fun heq => ?_⟩
  exact absurd heq.symm hg.2

theorem has_erased (h : Rings l s) (hx : Linked s x) (hpos : s.Has pos) (hne : pos ≠ x) :
    (erased s x).Has pos := by
  obtain ⟨k, hk, hmem⟩ := hpos
  have hkx : k ≠ x := by
    rintro rfl
    rcases hx with ⟨g, hg, hkg⟩ | ⟨-, hnil⟩
    · obtain rfl := h.apart g hg k hk k (List.mem_cons_of_mem g hkg) List.mem_cons_self
      exact (List.nodup_cons.mp (h.nodup g hg)).1 hkg
    · rw [hnil] at hmem
      exact hne (List.mem_singleton.mp hmem)
  refine ⟨k, ⟨hk, hkx⟩, ?_⟩
  rcases List.mem_cons.mp hmem with rfl | hmem
  · exact List.mem_cons_self
  · exact List.mem_cons_of_mem k ((List.mem_erase_of_ne hne).mpr hmem)

/-- The neighbours of an entry, and the list when they are linked. -/
theorem unlinkEntry_item (h : Rings l s) {k : ν} (hk : k ∈ s.heads) (hx : x ∈ s.items k) :
    ∃ as bs p n, s.items k = as ++ x :: bs ∧ (k :: as).getLast? = some p ∧
      (bs ++ [k]).head? = some n ∧ l.prev x = some p ∧ l.next x = some n ∧ p ≠ x ∧ n ≠ x ∧
      unlinkEntry l x
        = some ⟨Function.update l.next p (some n), Function.update l.prev n (some p)⟩ ∧
      Circle ⟨Function.update l.next p (some n), Function.update l.prev n (some p)⟩ k (as ++ bs) := by
  have hnodup := h.nodup k hk
  have hcirc := h.circle k hk
  obtain ⟨as, bs, heq⟩ := List.append_of_mem hx
  rw [heq] at hnodup hcirc
  obtain ⟨p, hp⟩ : ∃ p, (k :: as).getLast? = some p :=
    ⟨_, List.getLast?_eq_some_getLast (List.cons_ne_nil k as)⟩
  obtain ⟨n, hn⟩ : ∃ n, (bs ++ [k]).head? = some n := by
    cases bs <;> exact ⟨_, rfl⟩
  have hprev : l.prev x = some p := hcirc.prev_mem.trans hp
  have hnext : l.next x = some n := hcirc.next_mem.trans hn
  have hperm : (k :: (as ++ x :: bs)).Perm (x :: (k :: (as ++ bs))) :=
    (List.perm_middle.cons k).trans (.swap x k _)
  have hout := (List.nodup_cons.mp (hperm.nodup_iff.mp hnodup)).1
  have hne : ∀ y ∈ k :: (as ++ bs), y ≠ x := fun y hy hyx => hout (hyx ▸ hy)
  have hpmem : p ∈ k :: (as ++ bs) := by
    rw [← List.cons_append]
    exact List.mem_append_left bs (List.mem_of_getLast? hp)
  have hnmem : n ∈ k :: (as ++ bs) := by
    have := List.mem_of_head? hn
    simp only [List.mem_append, List.mem_cons, List.not_mem_nil, or_false] at this ⊢
    tauto
  obtain ⟨l', hdel, hcirc', -⟩ := hcirc.del hnodup
  rw [Links.del, hnext, Option.bind_some, hprev, Option.map_some, Option.some.injEq] at hdel
  subst hdel
  refine ⟨as, bs, p, n, heq, hp, hn, hprev, hnext, hne p hpmem, hne n hnmem, ?_, ?_⟩
  · rw [unlinkEntry, hnext, Option.bind_some, hprev]
    rfl
  · refine hcirc'.frame fun y hy => ?_
    simp [Links.unlink, hne y hy]

/-- An entry is unlinked from its list. -/
theorem unlinkEntry_spec (h : Rings l s) (hx : Linked s x) :
    ∃ l', unlinkEntry l x = some l' ∧ Rings l' (erased s x) := by
  rcases hx with ⟨k, hk, hmem⟩ | ⟨hhead, hnil⟩
  · obtain ⟨as, bs, p, n, heq, hp, hn, -, -, -, -, hunlink, hcirc⟩ := unlinkEntry_item h hk hmem
    have hnodup := h.nodup k hk
    rw [heq] at hnodup
    have hxas : x ∉ as := by
      intro hin
      exact (List.nodup_append.mp (List.nodup_cons.mp hnodup).2).2.2 x hin x List.mem_cons_self rfl
    have herase : (s.items k).erase x = as ++ bs := by
      rw [heq, List.erase_append_right _ hxas, List.erase_cons_head]
    have hring : Rings ⟨Function.update l.next p (some n), Function.update l.prev n (some p)⟩
        ⟨s.heads, fun g => (s.items g).erase x⟩ := by
      refine @Rings.edit _ l _ s (fun g => (s.items g).erase x) k [] h hk nofun
        (fun y hy => .inl (List.mem_of_mem_erase hy)) ?_ (fun g hg hgk => ?_) ?_ fun y _ hy => ?_
      · refine (h.nodup k hk).sublist ?_
        exact List.Sublist.cons_cons k List.erase_sublist
      · refine List.erase_of_not_mem fun hin => hgk ?_
        exact h.apart g hg k hk x (List.mem_cons_of_mem g hin) (List.mem_cons_of_mem k hmem)
      · rw [herase]
        exact hcirc
      · rw [heq] at hy
        have hyp : y ≠ p := by
          rintro rfl
          apply hy
          rw [← List.cons_append]
          exact List.mem_append_left _ (List.mem_of_getLast? hp)
        have hyn : y ≠ n := by
          rintro rfl
          have := List.mem_of_head? hn
          simp only [List.mem_append, List.mem_cons, List.not_mem_nil, or_false] at this hy
          tauto
        simp [hyp, hyn]
    exact ⟨_, hunlink, hring.restrict fun g hg => hg.1⟩
  · -- an empty list stays as it is
    have hcirc := h.circle x hhead
    rw [hnil] at hcirc
    have hnext : l.next x = some x := hcirc.next_head
    have hprev : l.prev x = some x := hcirc.prev_head
    refine ⟨l, ?_, ?_⟩
    · rw [unlinkEntry, hnext, Option.bind_some, hprev, Option.map_some, ← hnext,
        Function.update_eq_self, hnext, ← hprev, Function.update_eq_self]
    · refine (rings_without h x).congr fun g hg => List.erase_of_not_mem fun hmem => hg.2 ?_
      exact h.apart g hg.1 x hhead x (List.mem_cons_of_mem g hmem) List.mem_cons_self

/-- **`list_del`** takes an entry out, whatever list it is in. -/
theorem listDel_spec (h : Rings l s) (hx : Linked s x) :
    ∃ l', listDel l x = some l' ∧ Rings l' (erased s x) := by
  obtain ⟨l', hunlink, hrings⟩ := unlinkEntry_spec h hx
  refine ⟨_, by rw [listDel, hunlink]; rfl, hrings.frame fun y hy => ?_⟩
  have hyx : y ≠ x := fun heq => not_has_erased h x (heq ▸ hy)
  exact ⟨Function.update_of_ne hyx .., Function.update_of_ne hyx ..⟩

/-- **`INIT_LIST_HEAD`** makes a list of a node that is in no other. -/
theorem initHead_spec (h : Rings l s) (hx : ∀ g ∈ s.heads, x ∉ s.items g) :
    Rings (l.initHead x) ⟨insert x s.heads, Function.update s.items x []⟩ := by
  have hnot : ¬(without s x).Has x := by
    rintro ⟨g, ⟨hg, hgx⟩, hmem⟩
    rcases List.mem_cons.mp hmem with heq | hmem
    · exact hgx heq.symm
    · exact hx g hg hmem
  refine ((rings_without h x).initHead hnot).restrict fun g hg => ?_
  by_cases hgx : g = x
  · exact .inl hgx
  · exact .inr ⟨hg.resolve_left hgx, hgx⟩

/-- **`list_del_init`** leaves the entry with an empty list. -/
theorem listDelInit_spec (h : Rings l s) (hx : Linked s x) :
    ∃ l', listDelInit l x = some l' ∧
      Rings l' ⟨insert x s.heads, Function.update (erased s x).items x []⟩ := by
  obtain ⟨l', hunlink, hrings⟩ := unlinkEntry_spec h hx
  refine ⟨_, by rw [listDelInit, hunlink]; rfl, ?_⟩
  refine (hrings.initHead (not_has_erased h x)).restrict fun g hg => ?_
  by_cases hgx : g = x
  · exact .inl hgx
  · exact .inr ⟨hg.resolve_left hgx, hgx⟩

/-- **`list_move`** puts an entry behind another node. -/
theorem listMove_spec (h : Rings l s) (hx : Linked s x) (hpos : s.Has pos) (hne : pos ≠ x) :
    ∃ l', listMove l x pos = some l' ∧
      Rings l' ⟨s.heads \ {x}, fun g => behind pos [x] g ((s.items g).erase x)⟩ := by
  obtain ⟨l₁, hunlink, hrings⟩ := unlinkEntry_spec h hx
  obtain ⟨l', hadd, hrings'⟩ :=
    listAdd_spec hrings (free_erased h x) (has_erased h hx hpos hne) hne
  refine ⟨l', by rw [listMove, hunlink, Option.bind_some, hadd], ?_⟩
  exact hrings'.restrict fun g hg => ⟨hg, hg.2⟩

/-- **`list_move_tail`** puts an entry in front of another node. -/
theorem listMoveTail_spec (h : Rings l s) (hx : Linked s x) (hpos : s.Has pos) (hne : pos ≠ x) :
    ∃ l', listMoveTail l x pos = some l' ∧
      Rings l' ⟨s.heads \ {x}, fun g => inFront pos [x] g ((s.items g).erase x)⟩ := by
  obtain ⟨l₁, hunlink, hrings⟩ := unlinkEntry_spec h hx
  obtain ⟨l', hadd, hrings'⟩ :=
    listAddTail_spec hrings (free_erased h x) (has_erased h hx hpos hne) hne
  refine ⟨l', by rw [listMoveTail, hunlink, Option.bind_some, hadd], ?_⟩
  exact hrings'.restrict fun g hg => ⟨hg, hg.2⟩

/-! ## Replacements -/

/-- `new` in the place of `old`. -/
def replaced (old new : ν) (xs : List ν) : List ν :=
  xs.flatMap fun y => if y = old then [new] else [y]

/-- **`replace_node`** puts a node in the place of an entry. -/
theorem replaceNode_spec {old new : ν} (h : Rings l s) (hold : ∃ k ∈ s.heads, old ∈ s.items k)
    (hnew : Free s new) (hne : old ≠ new) :
    ∃ l', replaceNode l old new = some l' ∧
      Rings l' ⟨s.heads \ {new}, fun g => replaced old new (s.items g)⟩ := by
  obtain ⟨k, hk, hmem⟩ := hold
  have hkn : k ≠ new := by
    rintro rfl
    rw [(hnew k hk).2 rfl] at hmem
    cases hmem
  have hrest := rings_without h new
  have hk' : k ∈ (without s new).heads := ⟨hk, hkn⟩
  have hnodup : (k :: s.items k).Nodup := h.nodup k hk
  obtain ⟨as, bs, p, n, heq, hp, hn, hprev, hnext, hpo, hno, -, hcirc⟩ :=
    unlinkEntry_item hrest hk' hmem
  change s.items k = as ++ old :: bs at heq
  have hring : ∀ y, y ∈ k :: (as ++ bs) → y ∈ k :: s.items k := by
    intro y hy
    rw [heq]
    simp only [List.mem_cons, List.mem_append] at hy ⊢
    tauto
  have hpmem : p ∈ k :: (as ++ bs) := by
    rw [← List.cons_append]
    exact List.mem_append_left bs (List.mem_of_getLast? hp)
  have hnmem : n ∈ k :: (as ++ bs) := by
    have := List.mem_of_head? hn
    simp only [List.mem_append, List.mem_cons, List.not_mem_nil, or_false] at this ⊢
    tauto
  have hout : ∀ y, y ∈ k :: s.items k → y ≠ new := by
    rintro y hy rfl
    exact hnew.not_has ⟨k, hk', hy⟩
  have hpn := hout p (hring p hpmem)
  have hnodup' : (k :: (as ++ bs)).Nodup := by
    rw [heq] at hnodup
    exact hnodup.sublist ((List.Sublist.append_left (List.sublist_cons_self old bs) as).cons_cons k)
  have hadded := hcirc.add hnodup' (fun hin => hout new (hring new hin) rfl) hp hn
  have hreplaced : replaced old new (s.items k) = as ++ new :: bs := by
    rw [heq] at hnodup ⊢
    exact flatMap_mid (List.nodup_cons.mp hnodup).2
  refine ⟨l.add new p n, ?_, ?_⟩
  · have hprev' : Function.update l.prev n (some new) old = some p := by
      rw [Function.update_of_ne hno.symm, hprev]
    rw [replaceNode, hnext, Option.bind_some]
    show (Function.update l.prev n (some new) old).map _ = _
    rw [hprev', Option.map_some]
    show some (Links.mk (Function.update (Function.update l.next p (some new)) new
      (Function.update l.next p (some new) old)) (Function.update (Function.update l.prev n (some new))
        new (Function.update l.prev n (some new) old))) = _
    rw [hprev', Function.update_of_ne hpo.symm, hnext, Links.add, Function.update_comm hpn]
  · refine @Rings.edit _ l _ (without s new) (fun g => replaced old new (s.items g)) k [new] hrest
      hk' ?_ (fun y hy => ?_) ?_ (fun g hg hgk => ?_) ?_ fun y hy hyk => ?_
    · intro w hw
      rw [List.mem_singleton.mp hw]
      exact hnew.not_has
    · rw [hreplaced] at hy
      rcases List.mem_append.mp hy with hy | hy
      · exact .inl (show y ∈ s.items k from heq ▸ List.mem_append_left _ hy)
      · rcases List.mem_cons.mp hy with rfl | hy
        · exact .inr (List.mem_singleton_self _)
        · refine .inl (show y ∈ s.items k from heq ▸ ?_)
          exact List.mem_append_right as (List.mem_cons_of_mem old hy)
    · rw [hreplaced]
      have hperm : (k :: (as ++ new :: bs)).Perm (new :: (k :: (as ++ bs))) :=
        (List.perm_middle.cons k).trans (.swap new k _)
      exact hperm.nodup_iff.mpr
        (List.nodup_cons.mpr ⟨fun hin => hout new (hring new hin) rfl, hnodup'⟩)
    · refine flatMap_of_notMem fun hin => hgk ?_
      exact h.apart g hg.1 k hk old (List.mem_cons_of_mem g hin) (List.mem_cons_of_mem k hmem)
    · rw [hreplaced]
      refine hadded.frame fun y hy => ?_
      by_cases hyp : y = p
      · simp [Links.add, hyp]
      · by_cases hynew : y = new
        · simp [Links.add, hynew, hpn.symm]
        · simp [Links.add, hynew, hyp]
    · have hyp : y ≠ p := fun heq' => hyk (heq' ▸ hring p hpmem)
      have hyn : y ≠ n := fun heq' => hyk (heq' ▸ hring n hnmem)
      have hynew : y ≠ new := fun heq' => hy (heq' ▸ List.mem_singleton_self _)
      simp [Links.add, hyp, hyn, hynew]

/-! ## Splices -/

omit [DecidableEq ν] in
/-- The ends of a list that is not empty. -/
theorem list_ends (h : Rings l s) {list : ν} (hlist : list ∈ s.heads) (hne : s.items list ≠ []) :
    ∃ first last, l.next list = some first ∧ l.prev list = some last ∧ first ≠ list ∧
      (s.items list).head? = some first ∧ (s.items list).getLast? = some last ∧
      (s.items list).IsChain l.Follows := by
  have hcirc := h.circle list hlist
  have hout := (List.nodup_cons.mp (h.nodup list hlist)).1
  have hnext := hcirc.next_head
  have hprev := hcirc.prev_head
  obtain ⟨last, hlast⟩ : ∃ last, (s.items list).getLast? = some last :=
    ⟨_, List.getLast?_eq_some_getLast hne⟩
  obtain ⟨first, ys, heq⟩ := List.exists_cons_of_ne_nil hne
  refine ⟨first, last, ?_, ?_, fun hfirst => ?_, ?_, hlast, ?_⟩
  · rw [hnext, heq]
    rfl
  · rw [hprev, List.getLast?_cons, hlast]
    rfl
  · rw [heq, hfirst] at hout
    exact hout List.mem_cons_self
  · rw [heq]
    rfl
  · exact (List.isChain_append.mp (List.isChain_cons.mp hcirc).2).1

omit [DecidableEq ν] in
/-- What is spliced in is in no other list, and the list it goes to is another one. -/
theorem splice_apart (h : Rings l s) {list : ν} (hlist : list ∈ s.heads) (hpos : s.Has pos)
    (hout : pos ∉ list :: s.items list) :
    (∀ w ∈ s.items list, ¬(without s list).Has w) ∧
      ∃ k ∈ (without s list).heads, pos ∈ k :: s.items k := by
  constructor
  · rintro w hw ⟨g, ⟨hg, hgl⟩, hmem⟩
    exact hgl (h.apart g hg list hlist w hmem (List.mem_cons_of_mem list hw))
  · obtain ⟨k, hk, hmem⟩ := hpos
    refine ⟨k, ⟨hk, fun heq => hout ?_⟩, hmem⟩
    rwa [Set.mem_singleton_iff.mp heq] at hmem

/-- **`list_splice`** puts the entries of a list behind a node of another one. -/
theorem listSplice_spec (h : Rings l s) {list : ν} (hlist : list ∈ s.heads) (hpos : s.Has pos)
    (hout : pos ∉ list :: s.items list) :
    ∃ l', listSplice l list pos = some l' ∧
      Rings l' ⟨s.heads \ {list}, fun g => behind pos (s.items list) g (s.items g)⟩ := by
  obtain ⟨hfree, k, hk, hmem⟩ := splice_apart h hlist hpos hout
  have hrest := rings_without h list
  have hnodup := hrest.nodup k hk
  obtain ⟨zs, hperm, hcirc, hput, hback⟩ := (hrest.circle k hk).exists_view hnodup hmem
  obtain ⟨n, hn⟩ : ∃ n, (zs ++ [pos]).head? = some n := by
    cases zs <;> exact ⟨_, rfl⟩
  have hnext : l.next pos = some n := hcirc.next_head.trans hn
  by_cases hnil : s.items list = []
  · have hempty : listEmpty l list = true := by
      have hlast := (h.circle list hlist).next_head
      rw [hnil] at hlast
      exact decide_eq_true hlast
    refine ⟨l, by rw [listSplice, hnext, Option.bind_some, spliceBetween, if_pos hempty], ?_⟩
    refine hrest.congr fun g _ => ?_
    rw [hnil, behind_nil]
    rfl
  · obtain ⟨first, last, hfirst, hlast, hfl, hhead, htail, hchain⟩ := list_ends h hlist hnil
    have hempty : ¬listEmpty l list = true := by
      rw [listEmpty, hfirst]
      simpa using hfl
    have hspliced := @Circle.splice _ l pos [] zs _ (s.items list) pos n first last hcirc hchain
      (hperm.nodup_iff.mpr hnodup) (List.nodup_cons.mp (h.nodup list hlist)).2
      (fun y hy hin => hfree y hy ⟨k, hk, hperm.mem_iff.mp hin⟩) rfl hn hhead htail
    refine ⟨l.splice first last pos n, ?_, ?_⟩
    · rw [listSplice, hnext, Option.bind_some, spliceBetween, if_neg hempty, hfirst,
        Option.bind_some, hlast]
      rfl
    · refine rings_put hrest hk hmem (List.nodup_cons.mp (h.nodup list hlist)).2 hfree
        (fun g xs => behind_of_notMem) (hput _).1 ((hback _ _).1 hspliced) fun y hy hyk => ?_
      have hyf : y ≠ first := fun heq => hy (heq ▸ List.mem_of_head? hhead)
      have hyl : y ≠ last := fun heq => hy (heq ▸ List.mem_of_getLast? htail)
      have hyp : y ≠ pos := fun heq => hyk (heq ▸ hmem)
      have hnmem : n ∈ pos :: zs := by
        have := List.mem_of_head? hn
        simpa [or_comm] using this
      have hyn : y ≠ n := fun heq => hyk (heq ▸ hperm.mem_iff.mp hnmem)
      simp [Links.splice, hyf, hyl, hyp, hyn]

/-- **`list_splice_tail`** puts them in front of it. -/
theorem listSpliceTail_spec (h : Rings l s) {list : ν} (hlist : list ∈ s.heads) (hpos : s.Has pos)
    (hout : pos ∉ list :: s.items list) :
    ∃ l', listSpliceTail l list pos = some l' ∧
      Rings l' ⟨s.heads \ {list}, fun g => inFront pos (s.items list) g (s.items g)⟩ := by
  obtain ⟨hfree, k, hk, hmem⟩ := splice_apart h hlist hpos hout
  have hrest := rings_without h list
  have hnodup := hrest.nodup k hk
  obtain ⟨zs, hperm, hcirc, hput, hback⟩ := (hrest.circle k hk).exists_view hnodup hmem
  obtain ⟨p, hp⟩ : ∃ p, (pos :: zs).getLast? = some p :=
    ⟨_, List.getLast?_eq_some_getLast (List.cons_ne_nil pos zs)⟩
  have hprev : l.prev pos = some p := hcirc.prev_head.trans hp
  by_cases hnil : s.items list = []
  · have hempty : listEmpty l list = true := by
      have hlast := (h.circle list hlist).next_head
      rw [hnil] at hlast
      exact decide_eq_true hlast
    refine ⟨l, by rw [listSpliceTail, hprev, Option.bind_some, spliceBetween, if_pos hempty], ?_⟩
    refine hrest.congr fun g _ => ?_
    rw [hnil, inFront_nil]
    rfl
  · obtain ⟨first, last, hfirst, hlast, hfl, hhead, htail, hchain⟩ := list_ends h hlist hnil
    have hempty : ¬listEmpty l list = true := by
      rw [listEmpty, hfirst]
      simpa using hfl
    have hznodup : (pos :: (zs ++ [])).Nodup := by
      rw [List.append_nil]
      exact hperm.nodup_iff.mpr hnodup
    have hcirc' : Circle l pos (zs ++ []) := by rwa [List.append_nil]
    have hspliced := hcirc'.splice hchain hznodup (List.nodup_cons.mp (h.nodup list hlist)).2
      (fun y hy hin => hfree y hy ⟨k, hk, hperm.mem_iff.mp (by rwa [List.append_nil] at hin)⟩) hp rfl
      hhead htail
    rw [List.append_nil] at hspliced
    refine ⟨l.splice first last p pos, ?_, ?_⟩
    · rw [listSpliceTail, hprev, Option.bind_some, spliceBetween, if_neg hempty, hfirst,
        Option.bind_some, hlast]
      rfl
    · refine rings_put hrest hk hmem (List.nodup_cons.mp (h.nodup list hlist)).2 hfree
        (fun g xs => inFront_of_notMem) (hput _).2 ((hback _ _).2 hspliced) fun y hy hyk => ?_
      have hyf : y ≠ first := fun heq => hy (heq ▸ List.mem_of_head? hhead)
      have hyl : y ≠ last := fun heq => hy (heq ▸ List.mem_of_getLast? htail)
      have hyp : y ≠ pos := fun heq => hyk (heq ▸ hmem)
      have hyq : y ≠ p := fun heq => hyk (heq ▸ hperm.mem_iff.mp (List.mem_of_getLast? hp))
      simp [Links.splice, hyf, hyl, hyp, hyq]

omit [DecidableEq ν] in
/-- The head of a list that was spliced is in no other. -/
theorem spliced_head (h : Rings l s) {list : ν} (hlist : list ∈ s.heads) {put : ν → List ν}
    (hput : ∀ g y, y ∈ put g → y ∈ s.items g ∨ y ∈ s.items list) :
    ∀ g ∈ s.heads \ {list}, list ∉ put g := by
  rintro g ⟨hg, hgl⟩ hmem
  rcases hput g list hmem with hin | hin
  · exact hgl (h.apart g hg list hlist list (List.mem_cons_of_mem g hin) List.mem_cons_self)
  · exact (List.nodup_cons.mp (h.nodup list hlist)).1 hin

/-- **`list_splice_init`** leaves the list that was spliced empty. -/
theorem listSpliceInit_spec (h : Rings l s) {list : ν} (hlist : list ∈ s.heads)
    (hpos : s.Has pos) (hout : pos ∉ list :: s.items list) :
    ∃ l', listSpliceInit l list pos = some l' ∧
      Rings l' ⟨s.heads, Function.update (fun g => behind pos (s.items list) g (s.items g)) list []⟩ := by
  obtain ⟨l', hsplice, hrings⟩ := listSplice_spec h hlist hpos hout
  refine ⟨_, by rw [listSpliceInit, hsplice]; rfl, ?_⟩
  have hhead := spliced_head h hlist fun g y hy =>
    @mem_behind _ g (s.items g) _ pos (s.items list) y hy
  refine (initHead_spec hrings hhead).restrict fun g hg => ?_
  by_cases hgl : g = list
  · exact .inl hgl
  · exact .inr ⟨hg, hgl⟩

/-- **`list_splice_tail_init`** leaves the list that was spliced empty. -/
theorem listSpliceTailInit_spec (h : Rings l s) {list : ν} (hlist : list ∈ s.heads)
    (hpos : s.Has pos) (hout : pos ∉ list :: s.items list) :
    ∃ l', listSpliceTailInit l list pos = some l' ∧
      Rings l' ⟨s.heads, Function.update (fun g => inFront pos (s.items list) g (s.items g)) list []⟩ := by
  obtain ⟨l', hsplice, hrings⟩ := listSpliceTail_spec h hlist hpos hout
  refine ⟨_, by rw [listSpliceTailInit, hsplice]; rfl, ?_⟩
  have hhead := spliced_head h hlist fun g y hy =>
    @mem_inFront _ g (s.items g) _ pos (s.items list) y hy
  refine (initHead_spec hrings hhead).restrict fun g hg => ?_
  by_cases hgl : g = list
  · exact .inl hgl
  · exact .inr ⟨hg, hgl⟩

/-! ## Visits -/

/-- `list_for_each` in front of the entries `rest`. -/
theorem listForEachFrom_spec {head : ν} {rest : List ν} {fuel : Nat} {p : ν}
    (hchain : (rest ++ [head]).IsChain l.Follows) (hhead : head ∉ rest)
    (hp : (rest ++ [head]).head? = some p) (hfuel : rest.length < fuel) :
    listForEachFrom l head fuel p = some rest := by
  induction rest generalizing fuel p with
  | nil =>
      obtain ⟨fuel, rfl⟩ := Nat.exists_eq_succ_of_ne_zero (Nat.ne_of_gt hfuel)
      cases hp
      exact if_pos rfl
  | cons y rest ih =>
      obtain ⟨fuel, rfl⟩ := Nat.exists_eq_succ_of_ne_zero (Nat.ne_of_gt (Nat.zero_lt_of_lt hfuel))
      cases hp
      obtain ⟨hfirst, hchain⟩ := List.isChain_cons.mp hchain
      obtain ⟨next, hnext⟩ : ∃ next, (rest ++ [head]).head? = some next := by
        cases rest <;> exact ⟨_, rfl⟩
      rw [List.mem_cons, not_or] at hhead
      rw [listForEachFrom, if_neg (Ne.symm hhead.1), (hfirst next hnext).1, Option.bind_some,
        ih hchain hhead.2 hnext (Nat.lt_of_succ_lt_succ hfuel)]
      rfl

/-- **The loops visit the entries of a list in order**, and back. -/
theorem listForEach_spec (h : Rings l s) {head : ν} (hhead : head ∈ s.heads) {fuel : Nat}
    (hfuel : (s.items head).length < fuel) :
    listForEach l fuel head = some (s.items head) ∧
      listForEachPrev l fuel head = some (s.items head).reverse := by
  have hvisit : ∀ (l : Links ν) (xs : List ν), Circle l head xs → head ∉ xs → xs.length < fuel →
      listForEach l fuel head = some xs := by
    intro l xs hcirc hout hlt
    obtain ⟨p, hp⟩ : ∃ p, (xs ++ [head]).head? = some p := by
      cases xs <;> exact ⟨_, rfl⟩
    rw [listForEach, hcirc.next_head, hp, Option.bind_some]
    exact listForEachFrom_spec (List.isChain_cons.mp hcirc).2 hout hp hlt
  have hcirc := h.circle head hhead
  have hout := (List.nodup_cons.mp (h.nodup head hhead)).1
  refine ⟨hvisit l _ hcirc hout hfuel, hvisit l.flip _ hcirc.flip ?_ ?_⟩
  · rwa [List.mem_reverse]
  · rwa [List.length_reverse]

/-! ## Runs -/

/-- A call of one of the functions. -/
inductive Op (ν : Type*) where
  | init (list : ν)
  | add (new head : ν)
  | addTail (new head : ν)
  | del (entry : ν)
  | delInit (entry : ν)
  | move (list head : ν)
  | moveTail (entry head : ν)
  | replace (old new : ν)
  | splice (list head : ν)
  | spliceTail (list head : ν)
  | spliceInit (list head : ν)
  | spliceTailInit (list head : ν)

namespace Op

/-- A call on the pointers. -/
def run : Op ν → Links ν → Option (Links ν)
  | init list, l => some (l.initHead list)
  | add new head, l => listAdd l new head
  | addTail new head, l => listAddTail l new head
  | del entry, l => listDel l entry
  | delInit entry, l => listDelInit l entry
  | move list head, l => listMove l list head
  | moveTail entry head, l => listMoveTail l entry head
  | replace old new, l => replaceNode l old new
  | splice list head, l => listSplice l list head
  | spliceTail list head, l => listSpliceTail l list head
  | spliceInit list head, l => listSpliceInit l list head
  | spliceTailInit list head, l => listSpliceTailInit l list head

/-- A call on the lists. -/
def onLists : Op ν → HeadedLists ν → HeadedLists ν
  | init list, s => ⟨insert list s.heads, Function.update s.items list []⟩
  | add new head, s => ⟨s.heads \ {new}, fun g => behind head [new] g (s.items g)⟩
  | addTail new head, s => ⟨s.heads \ {new}, fun g => inFront head [new] g (s.items g)⟩
  | del entry, s => erased s entry
  | delInit entry, s => ⟨insert entry s.heads, Function.update (erased s entry).items entry []⟩
  | move list head, s =>
      ⟨s.heads \ {list}, fun g => behind head [list] g ((s.items g).erase list)⟩
  | moveTail entry head, s =>
      ⟨s.heads \ {entry}, fun g => inFront head [entry] g ((s.items g).erase entry)⟩
  | replace old new, s => ⟨s.heads \ {new}, fun g => replaced old new (s.items g)⟩
  | splice list head, s =>
      ⟨s.heads \ {list}, fun g => behind head (s.items list) g (s.items g)⟩
  | spliceTail list head, s =>
      ⟨s.heads \ {list}, fun g => inFront head (s.items list) g (s.items g)⟩
  | spliceInit list head, s =>
      ⟨s.heads, Function.update (fun g => behind head (s.items list) g (s.items g)) list []⟩
  | spliceTailInit list head, s =>
      ⟨s.heads, Function.update (fun g => inFront head (s.items list) g (s.items g)) list []⟩

/-- What the lists have to be for a call: an entry that is added is free, one that is taken
out is linked, and the place where it goes is somewhere else in a list. -/
def Fits : Op ν → HeadedLists ν → Prop
  | init list, s => ∀ g ∈ s.heads, list ∉ s.items g
  | add new head, s | addTail new head, s => Free s new ∧ s.Has head ∧ head ≠ new
  | del entry, s | delInit entry, s => Linked s entry
  | move entry head, s | moveTail entry head, s => Linked s entry ∧ s.Has head ∧ head ≠ entry
  | replace old new, s => (∃ k ∈ s.heads, old ∈ s.items k) ∧ Free s new ∧ old ≠ new
  | splice list head, s | spliceTail list head, s | spliceInit list head, s
  | spliceTailInit list head, s => list ∈ s.heads ∧ s.Has head ∧ head ∉ list :: s.items list

/-- Every call does to the pointers what it does to the lists. -/
theorem run_spec {op : Op ν} (h : Rings l s) (hop : op.Fits s) :
    ∃ l', op.run l = some l' ∧ Rings l' (op.onLists s) := by
  cases op with
  | init list => exact ⟨_, rfl, initHead_spec h hop⟩
  | add new head => exact listAdd_spec h hop.1 hop.2.1 hop.2.2
  | addTail new head => exact listAddTail_spec h hop.1 hop.2.1 hop.2.2
  | del entry => exact listDel_spec h hop
  | delInit entry => exact listDelInit_spec h hop
  | move list head => exact listMove_spec h hop.1 hop.2.1 hop.2.2
  | moveTail entry head => exact listMoveTail_spec h hop.1 hop.2.1 hop.2.2
  | replace old new => exact replaceNode_spec h hop.1 hop.2.1 hop.2.2
  | splice list head => exact listSplice_spec h hop.1 hop.2.1 hop.2.2
  | spliceTail list head => exact listSpliceTail_spec h hop.1 hop.2.1 hop.2.2
  | spliceInit list head => exact listSpliceInit_spec h hop.1 hop.2.1 hop.2.2
  | spliceTailInit list head => exact listSpliceTailInit_spec h hop.1 hop.2.1 hop.2.2

end Op

/-- One call after another on the pointers. -/
def runOps : List (Op ν) → Links ν → Option (Links ν)
  | [], l => some l
  | op :: ops, l => (op.run l).bind (runOps ops)

/-- The lists behind some calls. -/
def listsAfter : List (Op ν) → HeadedLists ν → HeadedLists ν
  | [], s => s
  | op :: ops, s => listsAfter ops (op.onLists s)

/-- All calls fit. -/
def FitAll : List (Op ν) → HeadedLists ν → Prop
  | [], _ => True
  | op :: ops, s => op.Fits s ∧ FitAll ops (op.onLists s)

/-- The lists in every state of a run, by induction over the calls. -/
theorem runOps_spec {ops : List (Op ν)} (h : Rings l s) (hops : FitAll ops s) :
    ∃ l', runOps ops l = some l' ∧ Rings l' (listsAfter ops s) := by
  induction ops generalizing l s with
  | nil => exact ⟨l, rfl, h⟩
  | cons op ops ih =>
      obtain ⟨l₁, hrun, h₁⟩ := Op.run_spec h hops.1
      obtain ⟨l', hrun', h'⟩ := ih h₁ hops.2
      exact ⟨l', by rw [runOps, hrun, Option.bind_some, hrun'], h'⟩

/-- Memory without lists. -/
def noLists : HeadedLists ν := ⟨∅, fun _ => []⟩

/-- **The pointers make the lists that the calls say**, whatever was in memory: the loops visit
their entries in order and back, and no entry is in two lists. -/
theorem rings_run (l : Links ν) {ops : List (Op ν)} (hops : FitAll ops noLists) :
    ∃ l', runOps ops l = some l' ∧
      (∀ head ∈ (listsAfter ops noLists).heads, ∀ fuel,
        ((listsAfter ops noLists).items head).length < fuel →
          listForEach l' fuel head = some ((listsAfter ops noLists).items head) ∧
          listForEachPrev l' fuel head = some ((listsAfter ops noLists).items head).reverse) ∧
      ∀ g ∈ (listsAfter ops noLists).heads, ∀ k ∈ (listsAfter ops noLists).heads,
        ∀ y ∈ g :: (listsAfter ops noLists).items g,
          y ∈ k :: (listsAfter ops noLists).items k → g = k := by
  have hempty : Rings l noLists := ⟨nofun, nofun, nofun⟩
  obtain ⟨l', hrun, h'⟩ := runOps_spec hempty hops
  exact ⟨l', hrun, fun head hhead fuel hfuel => listForEach_spec h' hhead hfuel, h'.apart⟩

/-- Two entries are added to a list, and one of them is replaced. -/
def addAndReplace : List (Op Nat) := [.init 0, .add 1 0, .addTail 2 0, .replace 1 3]

theorem fitAll_addAndReplace : FitAll addAndReplace noLists := by
  refine ⟨nofun, ⟨?_, ?_, by decide⟩, ⟨?_, ?_, by decide⟩, ⟨?_, ?_, by decide⟩, trivial⟩
  all_goals simp [Free, HeadedLists.Has, Op.onLists, noLists, behind, inFront]

theorem rings_run_addAndReplace :
    (listsAfter addAndReplace noLists).items 0 = [3, 2] ∧
      ∃ l', runOps addAndReplace ⟨fun _ => none, fun _ => none⟩ = some l' ∧
        (∀ head ∈ (listsAfter addAndReplace noLists).heads, ∀ fuel,
          ((listsAfter addAndReplace noLists).items head).length < fuel →
            listForEach l' fuel head = some ((listsAfter addAndReplace noLists).items head) ∧
            listForEachPrev l' fuel head
              = some ((listsAfter addAndReplace noLists).items head).reverse) ∧
        ∀ g ∈ (listsAfter addAndReplace noLists).heads,
          ∀ k ∈ (listsAfter addAndReplace noLists).heads,
            ∀ y ∈ g :: (listsAfter addAndReplace noLists).items g,
              y ∈ k :: (listsAfter addAndReplace noLists).items k → g = k :=
  ⟨by decide, rings_run ⟨fun _ => none, fun _ => none⟩ fitAll_addAndReplace⟩

end Libubox.ListHead
