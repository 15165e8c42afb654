import Libubox.SafeList.List

/-!
# The lists behind the pointers

`Rep heads known s a` says that the memory `s` holds the lists of `a` in the
circles of the `heads`, that the iterator of every walk of `a` points at what
the walk has to visit next, or at the head when it has come to the end, and that
every iterator hangs on what it points at.

`Rep.step` is the simulation: a step over the pointers is the step of the walks.
-/

namespace Libubox.SafeList

open Walks (Action Event Walk Good)
open Circles (Circle)

variable {ν : Type*} {heads : List ν} {known : ν → Prop} {s s' : State ν} {a a' : Walks.State ν ν}

structure Rep (heads : List ν) (known : ν → Prop) (s : State ν) (a : Walks.State ν ν) :
    Prop where
  circle : ∀ h ∈ heads, Circle s.list h (a.lists h)
  apart : ∀ h ∈ heads, ∀ k, h ∉ a.lists k
  knownHead : ∀ h ∈ heads, known h
  knownElem : ∀ k x, x ∈ a.lists k → known x
  calls : s.calls = a.walks.map Walk.key
  next : ∀ inner w outer, a.walks = inner ++ w :: outer →
    (w.rest ++ [w.key]).head? = some (s.next outer.length)
  registered : Registered known s.i s.next a.walks.length

/-- The node in a circle that a position stands for. -/
theorem exists_head (rest : List ν) (h : ν) : ∃ x, (rest ++ [h]).head? = some x := by
  cases rest with
  | nil => exact ⟨h, rfl⟩
  | cons y rest => exact ⟨y, rfl⟩

/-- It is the head or an element of the list. -/
theorem mem_of_head {rest : List ν} {h x : ν} (hx : (rest ++ [h]).head? = some x) :
    x = h ∧ rest = [] ∨ x ∈ rest := by
  cases rest with
  | nil => exact .inl ⟨(Option.some.inj hx).symm, rfl⟩
  | cons y rest =>
      right
      rw [← Option.some.inj hx]
      exact List.mem_cons_self

theorem Rep.known_of_head (h : Rep heads known s a) {k x : ν} {rest : List ν} (hk : k ∈ heads)
    (hrest : rest <:+ a.lists k) (hx : (rest ++ [k]).head? = some x) : known x := by
  rcases mem_of_head hx with ⟨rfl, -⟩ | hmem
  · exact h.knownHead _ hk
  · exact h.knownElem k x (hrest.subset hmem)

/-- The nodes of a circle, without a repetition. -/
theorem Rep.nodup (h : Rep heads known s a) (hgood : Good heads a) {k : ν} (hk : k ∈ heads) :
    (k :: a.lists k).Nodup :=
  List.nodup_cons.mpr ⟨h.apart k hk k, hgood.nodup k⟩

/-- What iterators point at is known. -/
theorem Rep.known_next (h : Rep heads known s a) (hgood : Good heads a)
    {inner outer : List (Walk ν ν)} {w : Walk ν ν} (hw : a.walks = inner ++ w :: outer) :
    known (s.next outer.length) := by
  have hmem : w ∈ a.walks := by
    rw [hw]
    exact List.mem_append_right inner List.mem_cons_self
  exact h.known_of_head (hgood.key w hmem) (hgood.suffix w hmem) (h.next inner w outer hw)

/-- The position behind `cur` in a circle. -/
theorem Rep.next_cur (h : Rep heads known s a) {k cur : ν} {rest : List ν}
    (hk : k ∈ heads) (hrest : rest <:+ a.lists k) (hcur : (rest ++ [k]).head? = some cur) :
    ∃ x, s.list.next cur = some x ∧ known x ∧ (cur ≠ k → (rest.tail ++ [k]).head? = some x) := by
  have hcirc := h.circle k hk
  cases rest with
  | nil =>
      obtain rfl : k = cur := Option.some.inj hcur
      obtain ⟨x, hx⟩ := exists_head (a.lists k) k
      refine ⟨x, hcirc.next_head.trans hx, h.known_of_head hk List.suffix_rfl hx, ?_⟩
      intro hne
      exact absurd rfl hne
  | cons y rest =>
      obtain rfl : y = cur := Option.some.inj hcur
      obtain ⟨x, hx⟩ := exists_head rest k
      obtain ⟨front, hfront⟩ := hrest
      rw [← hfront] at hcirc
      have hsuf : rest <:+ a.lists k :=
        (List.suffix_cons y rest).trans ⟨front, hfront⟩
      exact ⟨x, hcirc.next_mem.trans hx, h.known_of_head hk hsuf hx, fun _ => hx⟩

theorem Rep.mono {known' : ν → Prop} (h : Rep heads known s a) (heq : ∀ x, known' x ↔ known x) :
    Rep heads known' s a := by
  have : known' = known := funext fun x => propext (heq x)
  rwa [this]

variable [DecidableEq ν]

/-! ## Walking -/

/-- The iterator of the innermost call is taken off its chain, and the call
returns. -/
theorem Rep.pop (h : Rep heads known s a) (hgood : Good heads a) {w : Walk ν ν}
    {ws : List (Walk ν ν)} (hw : a.walks = w :: ws) :
    Rep heads known { s.delIterator ws.length with calls := ws.map Walk.key }
      { a with walks := ws } where
  circle := h.circle
  apart := h.apart
  knownHead := h.knownHead
  knownElem := h.knownElem
  calls := rfl
  next inner v outer hv := by
    have hws : ws = inner ++ v :: outer := hv
    exact h.next (w :: inner) v outer (by rw [hw, hws, List.cons_append])
  registered := by
    have hreg := h.registered
    rw [hw] at hreg
    have hknown := @Rep.known_next _ _ _ _ _ h hgood [] _ _ hw
    exact hreg.pop hknown

/-- A call goes on with `cur`, or returns. -/
theorem Rep.enter (h : Rep heads known s a) {k cur : ν} {rest : List ν}
    (hk : k ∈ heads) (hrest : rest <:+ a.lists k) (hcur : (rest ++ [k]).head? = some cur) :
    ∃ s', s.setIterator cur a.walks.length = some s' ∧
      (s'.loop k (a.walks.map Walk.key) cur).2 = (a.advance a.walks k rest).2 ∧
      Rep heads known (s'.loop k (a.walks.map Walk.key) cur).1
        (a.advance a.walks k rest).1 := by
  obtain ⟨x, hnext, hx, htail⟩ := h.next_cur hk hrest hcur
  refine ⟨_, by rw [State.setIterator, hnext]; rfl, ?_⟩
  have hpush := h.registered.push hx
  -- the iterators of the calls outside point where they did
  have hold : ∀ inner v outer, a.walks = inner ++ v :: outer →
      (v.rest ++ [v.key]).head?
        = some (Function.update s.next a.walks.length x outer.length) := by
    intro inner v outer hv
    have hne : outer.length ≠ a.walks.length := by
      rw [hv, List.length_append, List.length_cons]
      omega
    rw [Function.update_of_ne hne]
    exact h.next inner v outer hv
  rcases mem_of_head hcur with ⟨rfl, rfl⟩ | hmem
  · simp only [State.loop, if_true, List.length_map, Walks.State.advance]
    refine ⟨trivial, h.circle, h.apart, h.knownHead, h.knownElem, rfl, hold, ?_⟩
    exact hpush.pop (by simpa using hx)
  · have hne : cur ≠ k := by
      rintro rfl
      exact h.apart _ hk _ (hrest.subset hmem)
    obtain ⟨y, rest, rfl⟩ := List.exists_cons_of_ne_nil (List.ne_nil_of_mem hmem)
    obtain rfl : y = cur := Option.some.inj hcur
    simp only [State.loop, if_neg hne, List.length_map, Walks.State.advance]
    refine ⟨trivial, h.circle, h.apart, h.knownHead, h.knownElem, rfl, ?_, hpush⟩
    intro inner v outer hv
    cases inner with
    | nil =>
        cases hv
        simpa using htail hne
    | cons i inner =>
        rw [List.cons_append] at hv
        exact hold inner v outer (List.cons.inj hv).2

/-! ## Elements that come and go -/

/-- Where the iterators point when `x` is gone and `c` was behind it. -/
theorem Rep.next_del (h : Rep heads known s a) (hgood : Good heads a) {k x c : ν}
    {as bs : List ν} (hsplit : a.lists k = as ++ x :: bs)
    (hc : (bs ++ [k]).head? = some c) {inner outer : List (Walk ν ν)} {w : Walk ν ν}
    (hw : a.walks = inner ++ w :: outer) :
    (w.rest.filter (· ≠ x) ++ [w.key]).head?
      = some (if s.next outer.length = x then c else s.next outer.length) := by
  have hmem : w ∈ a.walks := by
    rw [hw]
    exact List.mem_append_right inner List.mem_cons_self
  have hkey := hgood.key w hmem
  have hsuf := hgood.suffix w hmem
  have hnext := h.next inner w outer hw
  have hx : x ∈ a.lists k := hsplit ▸ List.mem_append_right as List.mem_cons_self
  cases hrest : w.rest with
  | nil =>
      rw [hrest] at hnext
      have hnext : w.key = s.next outer.length := Option.some.inj hnext
      have hne : w.key ≠ x := fun heq => h.apart w.key hkey k (heq ▸ hx)
      simp [← hnext, hne]
  | cons y ys =>
      rw [hrest] at hnext hsuf
      have hnext : y = s.next outer.length := Option.some.inj hnext
      by_cases hyx : y = x
      · subst hyx
        have hwk : w.key = k := hgood.disjoint w.key k y (hsuf.subset List.mem_cons_self) hx
        have hnodup := hgood.nodup k
        rw [hwk, hsplit] at hsuf
        rw [hsplit] at hnodup
        have hys : ys = bs := by
          obtain ⟨front, hfront⟩ := hsuf
          have hnodup' := hnodup
          rw [← hfront] at hnodup'
          obtain ⟨-, hys, hdisj⟩ := List.nodup_append.mp hnodup'
          have hyfront : y ∉ front := fun hmem => hdisj y hmem y List.mem_cons_self rfl
          have hyys : y ∉ ys := (List.nodup_cons.mp hys).1
          exact ((List.append_cons_inj_of_notMem hyfront hyys).mp hfront).2.2
        have hybs : y ∉ bs := (List.nodup_cons.mp (List.nodup_append.mp hnodup).2.1).1
        have hkeep : bs.filter (· ≠ y) = bs := Hooks.filter_ne hybs
        rw [List.filter_cons, hys, hkeep, ← hnext, hwk]
        simpa using hc
      · simp [← hnext, hyx]

/-- An element is deleted. -/
theorem Rep.del (h : Rep heads known s a) (hgood : Good heads a) {k x : ν} (hk : k ∈ heads)
    (hx : x ∈ a.lists k) : ∃ s', s.safeListDel x = some s' ∧ Rep heads known s' (a.del x) := by
  obtain ⟨as, bs, hsplit⟩ := List.append_of_mem hx
  have hcirc := h.circle k hk
  have hnodup := h.nodup hgood hk
  rw [hsplit] at hcirc hnodup
  obtain ⟨c, hc⟩ := exists_head bs k
  have hnext : s.list.next x = some c := hcirc.next_mem.trans hc
  obtain ⟨links, hdel, hcirc', hframe⟩ := hcirc.del hnodup
  have hbs : bs <:+ a.lists k := ⟨as ++ [x], by rw [hsplit]; simp⟩
  have hcknown : known c := h.known_of_head hk hbs hc
  have hxknown : known x := h.knownElem k x hx
  have hxbs : x ∉ bs ∧ x ∉ as := by
    have hn := (List.nodup_append.mp (List.nodup_cons.mp hnodup).2)
    refine ⟨(List.nodup_cons.mp hn.2.1).1, fun hmem => ?_⟩
    exact hn.2.2 x hmem x List.mem_cons_self rfl
  have hxc : x ≠ c := by
    intro heq
    rcases mem_of_head hc with ⟨hck, -⟩ | hmem
    · exact h.apart k hk k ((heq.trans hck) ▸ hx)
    · exact hxbs.1 (heq ▸ hmem)
  -- the iterators on `x`, if there are any, move on to `c`
  obtain ⟨i', nexts, hstate, hreg, hnexts⟩ : ∃ i' nexts,
      s.safeListDel x = some { s with list := links, i := i', next := nexts } ∧
        Registered known i' nexts a.walks.length ∧
        ∀ j < a.walks.length, nexts j = if s.next j = x then c else s.next j := by
    cases hheld : s.i.held (.hook x) with
    | none =>
        refine ⟨s.i, s.next, ?_, h.registered, ?_⟩
        · simp [State.safeListDel, hnext, hdel, hheld]
        · intro j hj
          rw [if_neg ((h.registered.held_eq_none hxknown).mp hheld j hj)]
    | some j =>
        obtain ⟨nexts, tail, hret, hreg, hnexts⟩ := h.registered.move hxknown hcknown hxc hheld
        have hlength : s.calls.length = a.walks.length := by rw [h.calls, List.length_map]
        refine ⟨_, nexts, ?_, hreg, hnexts⟩
        simp [State.safeListDel, hnext, hdel, hheld, hlength, hret]
  refine ⟨_, hstate, ?_, ?_, h.knownHead, ?_, ?_, ?_, ?_⟩
  · intro k' hk'
    by_cases hkk : k' = k
    · subst hkk
      have hlist : (a.del x).lists k' = as ++ bs := by
        have has : as.filter (· ≠ x) = as := Hooks.filter_ne hxbs.2
        have hbs : bs.filter (· ≠ x) = bs := Hooks.filter_ne hxbs.1
        change (a.lists k').filter (· ≠ x) = as ++ bs
        rw [hsplit, List.filter_append, List.filter_cons, has, hbs]
        simp
      rw [hlist]
      exact hcirc'
    · have hxk' : x ∉ a.lists k' := fun hmem => hkk (hgood.disjoint k' k x hmem hx)
      have hlist : (a.del x).lists k' = a.lists k' := Hooks.filter_ne hxk'
      rw [hlist]
      refine (h.circle k' hk').frame fun y hy => hframe y ?_
      rw [← hsplit]
      intro hmem
      rcases List.mem_cons.mp hy with rfl | hy
      · rcases List.mem_cons.mp hmem with heq | hmem
        · exact hkk heq
        · exact h.apart _ hk' k hmem
      · rcases List.mem_cons.mp hmem with rfl | hmem
        · exact h.apart _ hk k' hy
        · exact hkk (hgood.disjoint k' k y hy hmem)
  · intro k' hk' j hmem
    exact h.apart k' hk' j (List.mem_filter.mp hmem).1
  · intro j y hy
    exact h.knownElem j y (List.mem_filter.mp hy).1
  · rw [Walks.State.del, List.map_map]
    exact h.calls
  · intro inner w outer hw
    obtain ⟨inner', rest', hinner, rfl, hrest⟩ := List.map_eq_append_iff.mp hw
    obtain ⟨v, outer', rfl, rfl, rfl⟩ := List.map_eq_cons_iff.mp hrest
    have hlt : outer'.length < a.walks.length := by
      rw [hinner, List.length_append, List.length_cons]
      omega
    have hnext := h.next_del hgood hsplit hc hinner
    rw [← hnexts _ hlt] at hnext
    rw [List.length_map]
    exact hnext
  · rw [Walks.State.del, List.length_map]
    exact hreg

/-- The walk that has `j` walks outside it. -/
theorem exists_split {α : Type*} {l : List α} {j : Nat} (h : j < l.length) :
    ∃ inner w outer, l = inner ++ w :: outer ∧ outer.length = j := by
  induction l with
  | nil => cases h
  | cons a l ih =>
      rcases Nat.lt_succ_iff_lt_or_eq.mp h with h | rfl
      · obtain ⟨inner, w, outer, rfl, houter⟩ := ih h
        exact ⟨a :: inner, w, outer, rfl, houter⟩
      · exact ⟨[], a, l, rfl, rfl⟩

/-- An element is put between two neighbours in the circle of `k`. -/
theorem Rep.put (h : Rep heads known s a) (hgood : Good heads a) {k x p n : ν} {as bs : List ν}
    {ws : List (Walk ν ν)} (hk : k ∈ heads) (hxh : x ∉ heads) (hx : ∀ k ∈ heads, x ∉ a.lists k)
    (hsplit : a.lists k = as ++ bs) (hp : (k :: as).getLast? = some p)
    (hn : (bs ++ [k]).head? = some n) (hkeys : ws.map Walk.key = a.walks.map Walk.key)
    (hnext : ∀ inner w outer, ws = inner ++ w :: outer →
      (w.rest ++ [w.key]).head? = some (s.next outer.length)) :
    Rep heads (fun y => known y ∨ y = x)
      { s with i := s.i.setHeld (.hook x) none, list := s.list.add x p n }
      ⟨Function.update a.lists k (as ++ x :: bs), ws⟩ := by
  have hlists : ∀ k' y, y ∈ Function.update a.lists k (as ++ x :: bs) k' →
      y = x ∨ y ∈ a.lists k' := by
    intro k' y hy
    by_cases hkk : k' = k
    · subst hkk
      rw [Function.update_self] at hy
      rw [hsplit]
      simp only [List.mem_append, List.mem_cons] at hy ⊢
      tauto
    · rw [Function.update_of_ne hkk] at hy
      exact .inr hy
  have hnodup := h.nodup hgood hk
  have hcirc := h.circle k hk
  have hxk : x ∉ k :: a.lists k := by
    intro hmem
    rcases List.mem_cons.mp hmem with rfl | hmem
    · exact hxh hk
    · exact hx k hk hmem
  have hlength : ws.length = a.walks.length := by
    simpa using congrArg List.length hkeys
  have hnode : ∀ y, y ∈ k :: as ∨ y ∈ bs ++ [k] → y ∈ k :: a.lists k := by
    intro y hy
    rw [hsplit]
    simp only [List.mem_cons, List.mem_append, List.not_mem_nil, or_false] at hy ⊢
    tauto
  have hpmem := hnode p (.inl (List.mem_of_getLast? hp))
  have hnmem := hnode n (.inr (List.mem_of_head? hn))
  refine ⟨?_, ?_, fun k' hk' => .inl (h.knownHead k' hk'), ?_, h.calls.trans hkeys.symm, hnext, ?_⟩
  · intro k' hk'
    change Circle (s.list.add x p n) k' (Function.update a.lists k (as ++ x :: bs) k')
    by_cases hkk : k' = k
    · subst hkk
      rw [Function.update_self]
      rw [hsplit] at hcirc hnodup hxk
      exact hcirc.add hnodup hxk hp hn
    · rw [Function.update_of_ne hkk]
      refine (h.circle k' hk').frame fun y hy => ?_
      have hyx : y ≠ x := by
        rintro rfl
        rcases List.mem_cons.mp hy with rfl | hy
        · exact hxh hk'
        · exact hx k' hk' hy
      have hother : y ∉ k :: a.lists k := by
        intro hmem
        rcases List.mem_cons.mp hy with rfl | hy
        · rcases List.mem_cons.mp hmem with heq | hmem
          · exact hkk heq
          · exact h.apart _ hk' k hmem
        · rcases List.mem_cons.mp hmem with rfl | hmem
          · exact h.apart _ hk k' hy
          · exact hkk (hgood.disjoint k' k y hy hmem)
      have hyp : y ≠ p := fun heq => hother (heq ▸ hpmem)
      have hyn : y ≠ n := fun heq => hother (heq ▸ hnmem)
      simp [Circles.Links.add, hyx, hyp, hyn]
  · intro k' hk' j hmem
    rcases hlists j k' hmem with rfl | hmem
    · exact hxh hk'
    · exact h.apart k' hk' j hmem
  · intro j y hy
    rcases hlists j y hy with rfl | hy
    · exact .inr rfl
    · exact .inl (h.knownElem j y hy)
  · rw [hlength]
    apply h.registered.clear
    intro j hj heq
    -- an iterator points at a head or at an element of a list
    obtain ⟨inner, w, outer, hw, rfl⟩ : ∃ inner w outer,
        a.walks = inner ++ w :: outer ∧ outer.length = j := exists_split hj
    have hmem : w ∈ a.walks := by
      rw [hw]
      exact List.mem_append_right inner List.mem_cons_self
    have hhead := h.next inner w outer hw
    rw [heq] at hhead
    rcases mem_of_head hhead with ⟨rfl, -⟩ | hmem'
    · exact hxh (hgood.key w hmem)
    · exact hx w.key (hgood.key w hmem) ((hgood.suffix w hmem).subset hmem')

/-- An element is added at the end. -/
theorem Rep.add (h : Rep heads known s a) (hgood : Good heads a) {k x : ν} (hk : k ∈ heads)
    (hxh : x ∉ heads) (hx : ∀ k ∈ heads, x ∉ a.lists k) :
    ∃ s', s.safeListAdd x k = some s' ∧ Rep heads (fun y => known y ∨ y = x) s' (a.add x k) := by
  obtain ⟨p, hp⟩ : ∃ p, (k :: a.lists k).getLast? = some p :=
    ⟨_, List.getLast?_eq_some_getLast (List.cons_ne_nil k _)⟩
  refine ⟨_, by rw [State.safeListAdd, (h.circle k hk).prev_head, hp]; rfl, ?_⟩
  refine h.put hgood hk hxh hx (List.append_nil _).symm hp rfl ?_ ?_
  · rw [List.map_map]
    exact List.map_congr_left fun w _ => Walk.key_add x k w
  · intro inner w outer hw
    obtain ⟨inner', rest', hinner, rfl, hrest⟩ := List.map_eq_append_iff.mp hw
    obtain ⟨v, outer', rfl, rfl, rfl⟩ := List.map_eq_cons_iff.mp hrest
    rw [List.length_map, ← h.next inner' v outer' hinner, Walk.key_add]
    unfold Walk.add
    split
    · next hgrow =>
        obtain ⟨y, ys, hys⟩ := List.exists_cons_of_ne_nil (by simpa using hgrow.2)
        rw [hys]
        rfl
    · rfl

/-- An element is added in front. -/
theorem Rep.addFirst (h : Rep heads known s a) (hgood : Good heads a) {k x : ν} (hk : k ∈ heads)
    (hxh : x ∉ heads) (hx : ∀ k ∈ heads, x ∉ a.lists k) :
    ∃ s', s.safeListAddFirst x k = some s' ∧
      Rep heads (fun y => known y ∨ y = x) s' (a.addFirst x k) := by
  obtain ⟨n, hn⟩ := exists_head (a.lists k) k
  refine ⟨_, by rw [State.safeListAddFirst, (h.circle k hk).next_head, hn]; rfl, ?_⟩
  exact @Rep.put _ _ _ _ _ _ h hgood _ _ _ _ [] _ _ hk hxh hx rfl rfl hn rfl h.next

/-! ## Steps -/

/-- The calls have no part in setting an iterator. -/
theorem setIterator_calls (s : State ν) (cs : List ν) (list : ν) (i : Nat) :
    ({ s with calls := cs } : State ν).setIterator list i
      = (s.setIterator list i).map fun t => { t with calls := cs } := by
  simp only [State.setIterator, Option.map_map]
  rfl

/-- The elements that an action puts on a list. -/
def added : Action ν ν → ν → Prop
  | .add x _, y | .addFirst x _, y => y = x
  | _, _ => False

/-- **A step over the pointers is the step of the walks.** -/
theorem Rep.step (h : Rep heads known s a) (hgood : Good heads a) {act : Action ν ν}
    (hok : Walks.Allowed heads a act) (hadd : ∀ x, added act x → x ∉ heads) :
    ∃ s' a' e, s.step act = some (s', e) ∧ a.step act = some (a', e) ∧
      Rep heads (fun x => known x ∨ added act x) s' a' := by
  have hsame : ∀ {s' a'}, Rep heads known s' a' → (∀ x, ¬added act x) →
      Rep heads (fun x => known x ∨ added act x) s' a' :=
    fun h hnot => h.mono fun x => or_iff_left (hnot x)
  have hlength : s.calls.length = a.walks.length := by rw [h.calls, List.length_map]
  cases act with
  | start k =>
      obtain ⟨cur, hcur⟩ := exists_head (a.lists k) k
      obtain ⟨s', hset, hevent, hrep⟩ := h.enter hok List.suffix_rfl hcur
      have hnext : s.list.next k = some cur := (h.circle k hok).next_head.trans hcur
      refine ⟨_, _, (a.advance a.walks k (a.lists k)).2, ?_, rfl, hsame hrep fun x => not_false⟩
      rw [State.step, hnext, Option.bind_some, hlength, hset, h.calls, Option.map_some]
      exact congrArg some (Prod.ext rfl hevent)
  | next =>
      obtain ⟨w, ws, hw⟩ := List.exists_cons_of_ne_nil hok
      have hmem : w ∈ a.walks := hw ▸ List.mem_cons_self
      have hpop := h.pop hgood hw
      obtain ⟨s', hset, hevent, hrep⟩ := hpop.enter (hgood.key w hmem) (hgood.suffix w hmem)
        (h.next [] w ws hw)
      have hcalls : s.calls = w.key :: ws.map Walk.key := by rw [h.calls, hw, List.map_cons]
      refine ⟨_, _, (a.advance ws w.key w.rest).2, ?_, by simp only [Walks.State.step, hw]; rfl,
        hsame hrep fun x => not_false⟩
      -- the iterator is set anew while the call is still there
      obtain ⟨t, ht, rfl⟩ : ∃ t, s.moveIterator (s.next ws.length) ws.length = some t ∧
          s' = { t with calls := ws.map Walk.key } := by
        rw [setIterator_calls] at hset
        obtain ⟨t, ht, hs'⟩ := Option.map_eq_some_iff.mp hset
        exact ⟨t, ht, hs'.symm⟩
      simp only [State.step, hcalls, List.length_map, ht, Option.map_some]
      exact congrArg some (Prod.ext rfl hevent)
  | stop =>
      obtain ⟨w, ws, hw⟩ := List.exists_cons_of_ne_nil hok
      have hcalls : s.calls = w.key :: ws.map Walk.key := by rw [h.calls, hw, List.map_cons]
      refine ⟨_, _, .finish ws.length false, by simp only [State.step, hcalls, List.length_map],
        by simp only [Walks.State.step, hw], hsame (h.pop hgood hw) fun x => not_false⟩
  | del x =>
      obtain ⟨k, hk, hx⟩ := hok
      obtain ⟨s', hdel, hrep⟩ := h.del hgood hk hx
      exact ⟨s', _, _, by rw [State.step, hdel]; rfl, rfl, hsame hrep fun x => not_false⟩
  | add x k =>
      obtain ⟨s', hs', hrep⟩ := h.add hgood hok.1 (hadd x rfl) hok.2
      exact ⟨s', _, _, by rw [State.step, hs']; rfl, rfl, hrep⟩
  | addFirst x k =>
      obtain ⟨s', hs', hrep⟩ := h.addFirst hgood hok.1 (hadd x rfl) hok.2
      exact ⟨s', _, _, by rw [State.step, hs']; rfl, rfl, hrep⟩

end Libubox.SafeList
