import Mathlib.Data.List.Nodup
import Mathlib.Logic.Function.Basic

/-!
# Items hung on hooks

Singly linked chains whose items point back, not at the item before them but at
the slot that holds the pointer to them: a hook of its own or the `next` field of
an item.  An item can be taken out without knowing on which hook it hangs.

`Hung hooks l r` says that on each of the `hooks` the items `r` hang, and none
elsewhere.  `Hung.insert`, `Hung.remove` and `Hung.splice` are the operations.
-/

namespace Hooks

variable {β κ : Type*}

/-- Where a pointer to an item is stored. -/
inductive Slot (β κ : Type*) where
  | hook (b : β)
  | next (k : κ)
  deriving DecidableEq

/-- What the slots hold, and at which slot an item points back. -/
structure Links (β κ : Type*) where
  held : Slot β κ → Option κ
  back : κ → Slot β κ

namespace Links

variable [DecidableEq κ]

/-- An item, unless it is null, points back at `p`. -/
def setBack (l : Links β κ) (o : Option κ) (p : Slot β κ) : Links β κ :=
  match o with
  | none => l
  | some k => { l with back := Function.update l.back k p }

@[simp] theorem held_setBack (l : Links β κ) (o : Option κ) (p : Slot β κ) :
    (l.setBack o p).held = l.held := by
  cases o <;> rfl

@[simp] theorem back_setBack (l : Links β κ) (o : Option κ) (p : Slot β κ) (k : κ) :
    (l.setBack o p).back k = if o = some k then p else l.back k := by
  cases o with
  | none => rfl
  | some j => simp [setBack, Function.update_apply, eq_comm]

variable [DecidableEq β]

def setHeld (l : Links β κ) (p : Slot β κ) (o : Option κ) : Links β κ :=
  { l with held := Function.update l.held p o }

/-- `k` goes between the slot `p` and what `p` holds. -/
def insert (l : Links β κ) (k : κ) (p : Slot β κ) : Links β κ :=
  (((l.setHeld p (some k)).setBack (some k) p).setHeld (.next k) (l.held p)).setBack
    (l.held p) (.next k)

/-- `k` is taken out. -/
def remove (l : Links β κ) (k : κ) : Links β κ :=
  (l.setHeld (l.back k) (l.held (.next k))).setBack (l.held (.next k)) (l.back k)

/-- The chain at `p`, which ends in the slot `tail`, goes in front of the one at
`q`. -/
def splice (l : Links β κ) (p tail q : Slot β κ) : Links β κ :=
  ((((l.setHeld q (l.held p)).setBack (l.held p) q).setHeld tail (l.held q)).setBack
    (l.held q) tail).setHeld p none

@[simp] theorem held_setHeld (l : Links β κ) (p : Slot β κ) (o : Option κ) (q : Slot β κ) :
    (l.setHeld p o).held q = if q = p then o else l.held q :=
  Function.update_apply l.held p o q

@[simp] theorem back_setHeld (l : Links β κ) (p : Slot β κ) (o : Option κ) :
    (l.setHeld p o).back = l.back := rfl

end Links

/-! ## Segments -/

/-- The items `ks` lie between the slots `p` and `q`. -/
def Seg (l : Links β κ) : Slot β κ → List κ → Slot β κ → Prop
  | p, [], q => p = q
  | p, k :: ks, q => l.held p = some k ∧ l.back k = p ∧ Seg l (.next k) ks q

/-- The items `ks` hang on `p`. -/
def Chain (l : Links β κ) (p : Slot β κ) (ks : List κ) : Prop :=
  ∃ q, Seg l p ks q ∧ l.held q = none

variable {l l' : Links β κ} {p q : Slot β κ} {ks js : List κ}

theorem Seg.append {r : Slot β κ} (h : Seg l p ks q) (h' : Seg l q js r) :
    Seg l p (ks ++ js) r := by
  induction ks generalizing p with
  | nil =>
      cases h
      exact h'
  | cons k ks ih =>
      obtain ⟨hheld, hback, hrest⟩ := h
      exact ⟨hheld, hback, ih hrest⟩

theorem Seg.split {r : Slot β κ} (h : Seg l p (ks ++ js) r) :
    ∃ q, Seg l p ks q ∧ Seg l q js r := by
  induction ks generalizing p with
  | nil => exact ⟨p, rfl, h⟩
  | cons k ks ih =>
      obtain ⟨hheld, hback, hrest⟩ := h
      obtain ⟨q, hks, hjs⟩ := ih hrest
      exact ⟨q, ⟨hheld, hback, hks⟩, hjs⟩

/-- A segment ends in the slot it starts from or in one of its items. -/
theorem Seg.end_mem (h : Seg l p ks q) : ks = [] ∧ q = p ∨ ∃ k ∈ ks, q = .next k := by
  induction ks generalizing p with
  | nil => exact .inl ⟨rfl, h.symm⟩
  | cons k ks ih =>
      right
      rcases ih h.2.2 with ⟨rfl, rfl⟩ | ⟨j, hj, rfl⟩
      · exact ⟨k, List.mem_cons_self, rfl⟩
      · exact ⟨j, List.mem_cons_of_mem k hj, rfl⟩

/-- The frame rule.  What the end of a segment holds does not belong to it. -/
theorem Seg.frame (h : Seg l p ks q) (hnodup : ks.Nodup) (hp : ∀ k ∈ ks, p ≠ .next k)
    (hheld : ∀ r, r ≠ q → (r = p ∨ ∃ k ∈ ks, r = .next k) → l'.held r = l.held r)
    (hback : ∀ k ∈ ks, l'.back k = l.back k) : Seg l' p ks q := by
  induction ks generalizing p with
  | nil => exact h
  | cons k ks ih =>
      obtain ⟨hk, hks⟩ := List.nodup_cons.mp hnodup
      have hpq : p ≠ q := by
        rcases h.end_mem with ⟨hnil, -⟩ | ⟨j, hj, rfl⟩
        · cases hnil
        · exact hp j hj
      obtain ⟨hpk, hkp, hrest⟩ := h
      refine ⟨?_, ?_, ih hrest hks ?_ ?_ ?_⟩
      · rw [hheld p hpq (.inl rfl), hpk]
      · rw [hback k List.mem_cons_self, hkp]
      · intro j hj heq
        injection heq with heq
        exact hk (heq ▸ hj)
      · intro r hr hmem
        apply hheld r hr
        rcases hmem with rfl | ⟨j, hj, rfl⟩
        · exact .inr ⟨k, List.mem_cons_self, rfl⟩
        · exact .inr ⟨j, List.mem_cons_of_mem k hj, rfl⟩
      · intro j hj
        exact hback j (List.mem_cons_of_mem k hj)

theorem Chain.frame (h : Chain l p ks) (hnodup : ks.Nodup) (hp : ∀ k ∈ ks, p ≠ .next k)
    (hheld : ∀ r, (r = p ∨ ∃ k ∈ ks, r = .next k) → l'.held r = l.held r)
    (hback : ∀ k ∈ ks, l'.back k = l.back k) : Chain l' p ks := by
  obtain ⟨q, hseg, hend⟩ := h
  refine ⟨q, hseg.frame hnodup hp (fun r _ => hheld r) hback, ?_⟩
  rw [hheld q, hend]
  rcases hseg.end_mem with ⟨-, rfl⟩ | ⟨k, hk, rfl⟩
  · exact .inl rfl
  · exact .inr ⟨k, hk, rfl⟩

/-- The first item. -/
theorem Chain.held (h : Chain l p ks) : l.held p = ks.head? := by
  obtain ⟨q, hseg, hend⟩ := h
  cases ks with
  | nil =>
      cases hseg
      exact hend
  | cons k ks => exact hseg.1

/-- A chain is a segment and the chain behind it. -/
theorem Seg.chain (h : Seg l p ks q) (h' : Chain l q js) : Chain l p (ks ++ js) := by
  obtain ⟨r, hseg, hend⟩ := h'
  exact ⟨r, h.append hseg, hend⟩

theorem Chain.split (h : Chain l p (ks ++ js)) : ∃ q, Seg l p ks q ∧ Chain l q js := by
  obtain ⟨r, hseg, hend⟩ := h
  obtain ⟨q, hks, hjs⟩ := hseg.split
  exact ⟨q, hks, r, hjs, hend⟩

theorem next_ne_next {k : κ} (h : k ∉ ks) : ∀ j ∈ ks, (.next k : Slot β κ) ≠ .next j := by
  intro j hj heq
  injection heq with heq
  exact h (heq ▸ hj)

/-- A segment that moves from the slot `p` to the slot `p'`. -/
theorem Seg.move {k : κ} {p' : Slot β κ} (h : Seg l p (k :: ks) q) (hnodup : (k :: ks).Nodup)
    (hfirst : l'.held p' = l.held p) (hback : l'.back k = p')
    (hheld : ∀ j ∈ k :: ks, .next j ≠ q → l'.held (.next j) = l.held (.next j))
    (htail : ∀ j ∈ ks, l'.back j = l.back j) : Seg l' p' (k :: ks) q := by
  obtain ⟨hpk, -, hrest⟩ := h
  obtain ⟨hk, hks⟩ := List.nodup_cons.mp hnodup
  refine ⟨hfirst.trans hpk, hback, hrest.frame hks (next_ne_next hk) ?_ htail⟩
  intro s hs hmem
  rcases hmem with rfl | ⟨j, hj, rfl⟩
  · exact hheld k List.mem_cons_self hs
  · exact hheld j (List.mem_cons_of_mem k hj) hs

/-- A chain that moves from the slot `p` to the slot `p'`. -/
theorem Chain.move {p' : Slot β κ} (h : Chain l p ks) (hnodup : ks.Nodup)
    (hfirst : l'.held p' = l.held p) (hback : ∀ k, ks.head? = some k → l'.back k = p')
    (hheld : ∀ k ∈ ks, l'.held (.next k) = l.held (.next k))
    (htail : ∀ k ∈ ks.tail, l'.back k = l.back k) : Chain l' p' ks := by
  obtain ⟨q, hseg, hend⟩ := h
  cases ks with
  | nil =>
      cases hseg
      exact ⟨p', rfl, hfirst.trans hend⟩
  | cons k ks =>
      refine ⟨q, hseg.move hnodup hfirst (hback k rfl) (fun j hj _ => hheld j hj) htail, ?_⟩
      rcases hseg.end_mem with ⟨hnil, -⟩ | ⟨j, hj, rfl⟩
      · cases hnil
      · rw [hheld j hj, hend]

/-- Only the first item is the head of its chain. -/
theorem head?_ne_of_mem_tail {k : κ} (hnodup : ks.Nodup) (hk : k ∈ ks.tail) :
    ks.head? ≠ some k := by
  intro heq
  obtain ⟨ys, rfl⟩ := List.head?_eq_some_iff.mp heq
  exact (List.nodup_cons.mp hnodup).1 hk

theorem filter_ne {α : Type*} [DecidableEq α] {xs : List α} {x : α} (h : x ∉ xs) :
    xs.filter (· ≠ x) = xs := by
  apply List.filter_eq_self.mpr
  intro y hy
  have hne : y ≠ x := fun heq => h (heq ▸ hy)
  simpa using hne

/-! ## All hooks -/

theorem hook_ne_next (b : β) (k : κ) : (.hook b : Slot β κ) ≠ .next k := by
  intro h
  cases h

/-- On each of the hooks `hooks` hang the items `r`, and no item hangs twice. -/
structure Hung (hooks : β → Prop) (l : Links β κ) (r : β → List κ) : Prop where
  chain : ∀ b, hooks b → Chain l (.hook b) (r b)
  nodup : ∀ b, (r b).Nodup
  disjoint : ∀ b c k, k ∈ r b → k ∈ r c → b = c

variable {hooks : β → Prop} {r : β → List κ}

/-- A chain that an operation does not touch. -/
theorem Hung.frame {b : β} (h : Hung hooks l r) (hb : hooks b)
    (hhook : l'.held (.hook b) = l.held (.hook b))
    (hheld : ∀ k ∈ r b, l'.held (.next k) = l.held (.next k))
    (hback : ∀ k ∈ r b, l'.back k = l.back k) : Chain l' (.hook b) (r b) := by
  refine (h.chain b hb).frame (h.nodup b) (fun k _ => hook_ne_next b k) ?_ hback
  intro s hs
  rcases hs with rfl | ⟨k, hk, rfl⟩
  · exact hhook
  · exact hheld k hk

section Operations

variable [DecidableEq β] [DecidableEq κ]

/-- An item is hung on a hook, in front of the others. -/
theorem Hung.insert {b : β} {k : κ} (h : Hung hooks l r) (hb : hooks b) (hk : ∀ c, k ∉ r c) :
    Hung hooks (l.insert k (.hook b)) (Function.update r b (k :: r b)) where
  chain c hc := by
    have hheld := (h.chain b hb).held
    have hnext : ∀ j ∈ r c, j ≠ k := fun j hj heq => hk c (heq ▸ hj)
    by_cases hcb : c = b
    · subst hcb
      rw [Function.update_self]
      have hfront : Seg (l.insert k (.hook c)) (.hook c) [k] (.next k) := by
        refine ⟨by simp [Links.insert], ?_, rfl⟩
        have hhead : l.held (.hook c) ≠ some k := by
          intro heq
          rw [hheld] at heq
          exact hk c (List.mem_of_head? heq)
        simp [Links.insert, hhead]
      refine hfront.chain ((h.chain c hc).move (h.nodup c) ?_ ?_ ?_ ?_)
      · simp [Links.insert]
      · intro j hj
        simp [Links.insert, hheld, hj]
      · intro j hj
        simp [Links.insert, hnext j hj]
      · intro j hj
        have hjr : j ∈ r c := List.mem_of_mem_tail hj
        have hhead : l.held (.hook c) ≠ some j := hheld ▸ head?_ne_of_mem_tail (h.nodup c) hj
        simp [Links.insert, hhead, (hnext j hjr).symm]
    · rw [Function.update_of_ne hcb]
      refine h.frame hc ?_ ?_ ?_
      · simp [Links.insert, hcb]
      · intro j hj
        simp [Links.insert, hnext j hj]
      · intro j hj
        have hhead : l.held (.hook b) ≠ some j := by
          intro heq
          rw [hheld] at heq
          exact hcb (h.disjoint c b j hj (List.mem_of_head? heq))
        simp [Links.insert, hhead, (hnext j hj).symm]
  nodup c := by
    by_cases hcb : c = b
    · subst hcb
      rw [Function.update_self]
      exact List.nodup_cons.mpr ⟨hk c, h.nodup c⟩
    · rw [Function.update_of_ne hcb]
      exact h.nodup c
  disjoint c d j hc hd := by
    have hmem : ∀ c, j ∈ Function.update r b (k :: r b) c → j = k ∧ c = b ∨ j ∈ r c := by
      intro c hc
      by_cases hcb : c = b
      · subst hcb
        rw [Function.update_self] at hc
        rcases List.mem_cons.mp hc with hc | hc
        · exact .inl ⟨hc, rfl⟩
        · exact .inr hc
      · rw [Function.update_of_ne hcb] at hc
        exact .inr hc
    rcases hmem c hc with ⟨rfl, rfl⟩ | hold
    · rcases hmem d hd with ⟨-, rfl⟩ | hold
      · rfl
      · exact absurd hold (hk d)
    · rcases hmem d hd with ⟨rfl, -⟩ | hold'
      · exact absurd hold (hk c)
      · exact h.disjoint c d j hold hold'

/-- An item is taken out. -/
theorem Hung.remove {b : β} {k : κ} (h : Hung hooks l r) (hb : hooks b) (hk : k ∈ r b) :
    Hung hooks (l.remove k) (fun c => (r c).filter (· ≠ k)) where
  chain c hc := by
    obtain ⟨ks, js, hsplit⟩ := List.append_of_mem hk
    have hnodup := h.nodup b
    have hchain := h.chain b hb
    rw [hsplit] at hnodup hchain
    obtain ⟨q, hks, hrest⟩ := hchain.split
    obtain ⟨t, ⟨hqk, hkq, hseg⟩, hend⟩ := hrest
    have hjs : Chain l (.next k) js := ⟨t, hseg, hend⟩
    have hheld := hjs.held
    obtain ⟨hnks, hnjs, hdisj⟩ := List.nodup_append.mp hnodup
    obtain ⟨hkjs, hnjs⟩ := List.nodup_cons.mp hnjs
    have hfirst : ∀ j, js.head? = some j → j ∈ js := fun j hj => List.mem_of_head? hj
    -- the item in front of `k`, or the hook, holds what `k` held
    have hback : ∀ j, j ∉ js → (l.remove k).back j = l.back j := by
      intro j hj
      have hne : l.held (.next k) ≠ some j := by
        intro heq
        exact hj (hfirst j (hheld ▸ heq))
      simp [Links.remove, hne]
    by_cases hcb : c = b
    · subst hcb
      have hfilter : (r c).filter (· ≠ k) = ks ++ js := by
        have hkks : k ∉ ks := fun hmem => hdisj k hmem k List.mem_cons_self rfl
        have hkeep : ks.filter (· ≠ k) = ks := filter_ne hkks
        have hkeep' : js.filter (· ≠ k) = js := filter_ne hkjs
        rw [hsplit, List.filter_append, List.filter_cons, hkeep, hkeep']
        simp
      rw [hfilter]
      have hfront : Seg (l.remove k) (.hook c) ks q := by
        refine hks.frame hnks (fun j _ => hook_ne_next c j) ?_ ?_
        · intro s hs _
          simp [Links.remove, hkq, hs]
        · intro j hj
          exact hback j fun hj' => hdisj j hj j (List.mem_cons_of_mem k hj') rfl
      have hq : ∀ j ∈ js, (.next j : Slot β κ) ≠ q := by
        intro j hj heq
        rcases hks.end_mem with ⟨-, hq⟩ | ⟨i, hi, hq⟩
        · exact hook_ne_next c j (hq ▸ heq).symm
        · rw [hq] at heq
          injection heq with heq
          exact hdisj i hi j (List.mem_cons_of_mem k hj) heq.symm
      refine hfront.chain (hjs.move hnjs ?_ ?_ ?_ ?_)
      · simp [Links.remove, hkq]
      · intro j hj
        simp [Links.remove, hheld, hj, hkq]
      · intro j hj
        simp [Links.remove, hkq, hq j hj]
      · intro j hj
        have hne : l.held (.next k) ≠ some j := hheld ▸ head?_ne_of_mem_tail hnjs hj
        simp [Links.remove, hne]
    · have hother : ∀ j ∈ r c, j ∉ r b := fun j hj hj' => hcb (h.disjoint c b j hj hj')
      have hkc : k ∉ r c := fun hkc => hother k hkc hk
      have hkeep : (r c).filter (· ≠ k) = r c := filter_ne hkc
      rw [hkeep]
      have hq : ∀ s, (s = .hook c ∨ ∃ j ∈ r c, s = .next j) → s ≠ q := by
        intro s hs heq
        rcases hks.end_mem with ⟨-, hq⟩ | ⟨i, hi, hq⟩
        · rcases hs with rfl | ⟨j, -, rfl⟩
          · rw [hq] at heq
            injection heq with heq
            exact hcb heq
          · exact hook_ne_next b j (hq ▸ heq).symm
        · rcases hs with rfl | ⟨j, hj, rfl⟩
          · exact hook_ne_next c i (hq ▸ heq)
          · rw [hq] at heq
            injection heq with heq
            exact hother j hj (hsplit ▸ List.mem_append_left _ (heq ▸ hi))
      refine h.frame hc ?_ ?_ ?_
      · simp [Links.remove, hkq, hq _ (.inl rfl)]
      · intro j hj
        simp [Links.remove, hkq, hq _ (.inr ⟨j, hj, rfl⟩)]
      · intro j hj
        refine hback j fun hj' => hother j hj ?_
        rw [hsplit]
        exact List.mem_append_right ks (List.mem_cons_of_mem k hj')
  nodup c := (h.nodup c).filter _
  disjoint c d j hc hd := h.disjoint c d j (List.mem_filter.mp hc).1 (List.mem_filter.mp hd).1

/-- The items on a hook go to another one, in front of the items there. -/
theorem Hung.splice {b c : β} {tail : Slot β κ} (h : Hung hooks l r) (hb : hooks b)
    (hc : hooks c) (hbc : b ≠ c) (hne : r b ≠ []) (htail : Seg l (.hook b) (r b) tail) :
    Hung hooks (l.splice (.hook b) tail (.hook c))
      (Function.update (Function.update r c (r b ++ r c)) b []) where
  chain d hd := by
    have hheldb := (h.chain b hb).held
    have hheldc := (h.chain c hc).held
    have hdisj : ∀ d e k, d ≠ e → k ∈ r d → k ∉ r e := fun d e k hde hk hk' =>
      hde (h.disjoint d e k hk hk')
    obtain ⟨last, hlast, rfl⟩ : ∃ k ∈ r b, tail = .next k := by
      rcases htail.end_mem with ⟨hnil, -⟩ | hmem
      · exact absurd hnil hne
      · exact hmem
    -- an item points back as before, unless it is the first one on `b` or `c`
    have hback : ∀ j, (r b).head? ≠ some j → (r c).head? ≠ some j →
        (l.splice (.hook b) (.next last) (.hook c)).back j = l.back j := by
      intro j hjb hjc
      simp [Links.splice, hheldb, hheldc, hjb, hjc]
    by_cases hdb : d = b
    · subst hdb
      rw [Function.update_self]
      exact ⟨.hook d, rfl, by simp [Links.splice]⟩
    rw [Function.update_of_ne hdb]
    by_cases hdc : d = c
    · subst hdc
      rw [Function.update_self]
      obtain ⟨first, ks, hks⟩ := List.exists_cons_of_ne_nil hne
      have hfront : Seg (l.splice (.hook b) (.next last) (.hook d)) (.hook d) (r b)
          (.next last) := by
        have hnodup := h.nodup b
        rw [hks] at htail hnodup ⊢
        refine htail.move hnodup ?_ ?_ ?_ ?_
        · simp [Links.splice, Ne.symm hbc]
        · have hfirst : (r d).head? ≠ some first := fun heq =>
            hdisj b d first hbc (hks ▸ List.mem_cons_self) (List.mem_of_head? heq)
          simp [Links.splice, hheldb, hheldc, hks, hfirst]
        · intro j hj hjl
          have hjlast : j ≠ last := fun heq => hjl (heq ▸ rfl)
          simp [Links.splice, hjlast]
        · intro j hj
          refine hback j ?_ fun heq => hdisj b d j hbc (hks ▸ List.mem_cons_of_mem first hj)
            (List.mem_of_head? heq)
          rw [hks]
          exact head?_ne_of_mem_tail hnodup hj
      refine hfront.chain ((h.chain d hd).move (h.nodup d) ?_ ?_ ?_ ?_)
      · simp [Links.splice]
      · intro j hj
        simp [Links.splice, hheldc, hj]
      · intro j hj
        have hjlast : j ≠ last := fun heq => hdisj b d last hbc hlast (heq ▸ hj)
        simp [Links.splice, hjlast]
      · intro j hj
        refine hback j ?_ (head?_ne_of_mem_tail (h.nodup d) hj)
        exact fun heq => hdisj b d j hbc (List.mem_of_head? heq) (List.mem_of_mem_tail hj)
    · rw [Function.update_of_ne hdc]
      refine h.frame hd ?_ ?_ ?_
      · simp [Links.splice, hdb, hdc]
      · intro j hj
        have hjlast : j ≠ last := fun heq => hdisj d b last hdb (heq ▸ hj) hlast
        simp [Links.splice, hjlast]
      · intro j hj
        exact hback j (fun heq => hdisj d b j hdb hj (List.mem_of_head? heq))
          fun heq => hdisj d c j hdc hj (List.mem_of_head? heq)
  nodup d := by
    by_cases hdb : d = b
    · subst hdb
      rw [Function.update_self]
      exact List.nodup_nil
    rw [Function.update_of_ne hdb]
    by_cases hdc : d = c
    · subst hdc
      rw [Function.update_self]
      refine List.nodup_append.mpr ⟨h.nodup b, h.nodup d, ?_⟩
      intro i hi j hj heq
      exact hbc (h.disjoint b d i hi (heq ▸ hj))
    · rw [Function.update_of_ne hdc]
      exact h.nodup d
  disjoint d e k hd he := by
    -- an item comes from where it was, or from `b` to `c`
    have hmem : ∀ d, k ∈ Function.update (Function.update r c (r b ++ r c)) b [] d →
        d ≠ b ∧ (k ∈ r d ∨ d = c ∧ k ∈ r b) := by
      intro d hd
      by_cases hdb : d = b
      · subst hdb
        rw [Function.update_self] at hd
        cases hd
      rw [Function.update_of_ne hdb] at hd
      refine ⟨hdb, ?_⟩
      by_cases hdc : d = c
      · subst hdc
        rw [Function.update_self] at hd
        rcases List.mem_append.mp hd with hd | hd
        · exact .inr ⟨rfl, hd⟩
        · exact .inl hd
      · rw [Function.update_of_ne hdc] at hd
        exact .inl hd
    obtain ⟨hdb, hdk⟩ := hmem d hd
    obtain ⟨heb, hek⟩ := hmem e he
    rcases hdk with hdk | ⟨hdc, hdk⟩
    · rcases hek with hek | ⟨-, hek⟩
      · exact h.disjoint d e k hdk hek
      · exact absurd (h.disjoint d b k hdk hek) hdb
    · rcases hek with hek | ⟨hec, -⟩
      · exact absurd (h.disjoint e b k hek hdk) heb
      · exact hdc.trans hec.symm

end Operations

end Hooks
