import Libubox.Lib.Machine
import Mathlib.Data.List.Nodup
import Mathlib.Logic.Function.Basic

/-!
# Lists that change while they are walked

Disjoint lists under the keys `heads`, and a stack of walks over them, the
innermost first.  While a walk has handed out an element, elements may be
deleted and added and further walks may start, go on and end.  A walk keeps
what it has yet to visit: a suffix of its list, from which deleted elements go
away, and which grows at the end unless the walk has come there already.

`visits_of_whole` is the law of such walks: those elements that are not deleted
meanwhile are visited once each, in the order of the list.
-/

namespace Walks

variable {κ ν : Type*}

/-- A walk over the list under `key`. -/
structure Walk (κ ν : Type*) where
  key : κ
  rest : List ν
  deriving DecidableEq

/-- The lists, and the walks that are going on. -/
structure State (κ ν : Type*) where
  lists : κ → List ν
  walks : List (Walk κ ν)

/-- What can be done while the innermost walk has handed out an element.  With
`next` it goes on, with `stop` it is given up. -/
inductive Action (κ ν : Type*) where
  | start (k : κ)
  | next
  | stop
  | del (x : ν)
  | add (x : ν) (k : κ)
  | addFirst (x : ν) (k : κ)
  deriving DecidableEq

/-- What is seen of it.  Walks are known by how many there are outside them. -/
inductive Event (ν : Type*) where
  | visit (depth : Nat) (x : ν)
  | finish (depth : Nat) (complete : Bool)
  | silent
  deriving DecidableEq

/-- A walk when `x` is deleted. -/
def Walk.del [DecidableEq ν] (x : ν) (w : Walk κ ν) : Walk κ ν := { w with rest := w.rest.filter (· ≠ x) }

/-- A walk when `x` is added at the end of the list under `k`. -/
def Walk.add [DecidableEq κ] (x : ν) (k : κ) (w : Walk κ ν) : Walk κ ν :=
  if w.key = k ∧ w.rest.isEmpty = false then { w with rest := w.rest ++ [x] } else w

namespace State

def del [DecidableEq ν] (s : State κ ν) (x : ν) : State κ ν :=
  { lists := fun k => (s.lists k).filter (· ≠ x)
    walks := s.walks.map (Walk.del x) }

def add [DecidableEq κ] (s : State κ ν) (x : ν) (k : κ) : State κ ν :=
  { lists := Function.update s.lists k (s.lists k ++ [x])
    walks := s.walks.map (Walk.add x k) }

def addFirst [DecidableEq κ] (s : State κ ν) (x : ν) (k : κ) : State κ ν :=
  { s with lists := Function.update s.lists k (x :: s.lists k) }

/-- The innermost walk over the list under `k`, outside it the walks `ws`, hands
out the first element of `rest` or ends. -/
def advance (s : State κ ν) (ws : List (Walk κ ν)) (k : κ) :
    List ν → State κ ν × Event ν
  | [] => ({ s with walks := ws }, .finish ws.length true)
  | x :: rest => ({ s with walks := ⟨k, rest⟩ :: ws }, .visit ws.length x)

def step [DecidableEq κ] [DecidableEq ν] (s : State κ ν) : Action κ ν → Option (State κ ν × Event ν)
  | .start k => some (s.advance s.walks k (s.lists k))
  | .next =>
      match s.walks with
      | [] => none
      | w :: ws => some (s.advance ws w.key w.rest)
  | .stop =>
      match s.walks with
      | [] => none
      | _ :: ws => some ({ s with walks := ws }, .finish ws.length false)
  | .del x => some (s.del x, .silent)
  | .add x k => some (s.add x k, .silent)
  | .addFirst x k => some (s.addFirst x k, .silent)

end State

variable (heads : List κ)

/-- An element is deleted only from a list it is on, and added only when it is
on none. -/
def Allowed (s : State κ ν) : Action κ ν → Prop
  | .start k => k ∈ heads
  | .next | .stop => s.walks ≠ []
  | .del x => ∃ k ∈ heads, x ∈ s.lists k
  | .add x k | .addFirst x k => k ∈ heads ∧ ∀ k' ∈ heads, x ∉ s.lists k'

instance [DecidableEq κ] [DecidableEq ν] (s : State κ ν) (a : Action κ ν) :
    Decidable (Allowed heads s a) :=
  match a with
  | .start k => inferInstanceAs (Decidable (k ∈ heads))
  | .next | .stop =>
      decidable_of_iff (s.walks.isEmpty = false) (by cases hs : s.walks <;> simp [Allowed, hs])
  | .del x => inferInstanceAs (Decidable (∃ k ∈ heads, x ∈ s.lists k))
  | .add x k | .addFirst x k =>
      inferInstanceAs (Decidable (k ∈ heads ∧ ∀ k' ∈ heads, x ∉ s.lists k'))

/-! ## The state of the lists -/

/-- The lists are disjoint, and every walk has a suffix of its list to go. -/
structure Good (s : State κ ν) : Prop where
  off : ∀ k ∉ heads, s.lists k = []
  nodup : ∀ k, (s.lists k).Nodup
  disjoint : ∀ k k' x, x ∈ s.lists k → x ∈ s.lists k' → k = k'
  key : ∀ w ∈ s.walks, w.key ∈ heads
  suffix : ∀ w ∈ s.walks, w.rest <:+ s.lists w.key

variable {heads} {s s' : State κ ν}

@[simp] theorem mem_del [DecidableEq ν] {x y : ν} {k : κ} :
    y ∈ (s.del x).lists k ↔ y ∈ s.lists k ∧ y ≠ x := by
  simp [State.del]

theorem mem_lists_update [DecidableEq κ] {x y : ν} {k k' : κ} {xs : List ν}
    (hxs : ∀ z, z ∈ xs ↔ z = x ∨ z ∈ s.lists k) :
    y ∈ Function.update s.lists k xs k' ↔ y = x ∧ k' = k ∨ y ∈ s.lists k' := by
  by_cases hk : k' = k
  · subst hk
    rw [Function.update_self, hxs]
    simp
  · rw [Function.update_of_ne hk]
    simp [hk]

@[simp] theorem mem_add [DecidableEq κ] {x y : ν} {k k' : κ} :
    y ∈ (s.add x k).lists k' ↔ y = x ∧ k' = k ∨ y ∈ s.lists k' :=
  mem_lists_update fun z => by simp [or_comm]

@[simp] theorem mem_addFirst [DecidableEq κ] {x y : ν} {k k' : κ} :
    y ∈ (s.addFirst x k).lists k' ↔ y = x ∧ k' = k ∨ y ∈ s.lists k' :=
  mem_lists_update fun z => by simp

/-- An element that is on no list under a head is on no list. -/
theorem Good.notMem {x : ν} (h : Good heads s) (hx : ∀ k ∈ heads, x ∉ s.lists k) (k : κ) :
    x ∉ s.lists k := by
  by_cases hk : k ∈ heads
  · exact hx k hk
  · rw [h.off k hk]
    exact List.not_mem_nil

theorem Good.del [DecidableEq ν] (h : Good heads s) (x : ν) : Good heads (s.del x) where
  off k hk := by simp [State.del, h.off k hk]
  nodup k := (h.nodup k).filter _
  disjoint k k' y hy hy' :=
    h.disjoint k k' y (List.mem_filter.mp hy).1 (List.mem_filter.mp hy').1
  key w hw := by
    obtain ⟨v, hv, rfl⟩ := List.mem_map.mp hw
    exact h.key v hv
  suffix w hw := by
    obtain ⟨v, hv, rfl⟩ := List.mem_map.mp hw
    exact (h.suffix v hv).filter _

/-- Lists of a state in which `x` was put on the list under `k`. -/
theorem Good.put [DecidableEq κ] {x : ν} {k : κ} {xs : List ν} (h : Good heads s) (hk : k ∈ heads)
    (hx : ∀ k ∈ heads, x ∉ s.lists k) (hxs : xs.Perm (x :: s.lists k)) {ws : List (Walk κ ν)}
    (hkey : ∀ w ∈ ws, w.key ∈ heads)
    (hsuffix : ∀ w ∈ ws, w.rest <:+ Function.update s.lists k xs w.key) :
    Good heads ⟨Function.update s.lists k xs, ws⟩ where
  off k' hk' := by
    have hne : k' ≠ k := by
      intro heq
      exact hk' (heq ▸ hk)
    simp [hne, h.off k' hk']
  nodup k' := by
    change (Function.update s.lists k xs k').Nodup
    by_cases hk' : k' = k
    · subst hk'
      rw [Function.update_self]
      exact hxs.nodup_iff.mpr (List.nodup_cons.mpr ⟨h.notMem hx k', h.nodup k'⟩)
    · rw [Function.update_of_ne hk']
      exact h.nodup k'
  disjoint := by
    have hmem : ∀ k' y, y ∈ Function.update s.lists k xs k' → (k' = k ∧ y = x) ∨ y ∈ s.lists k' := by
      intro k' y hy
      by_cases hk' : k' = k
      · subst hk'
        rw [Function.update_self] at hy
        rcases List.mem_cons.mp (hxs.mem_iff.mp hy) with hy | hy
        · exact .inl ⟨rfl, hy⟩
        · exact .inr hy
      · rw [Function.update_of_ne hk'] at hy
        exact .inr hy
    intro k₁ k₂ y h₁ h₂
    rcases hmem k₁ y h₁ with ⟨rfl, rfl⟩ | hold₁
    · rcases hmem k₂ y h₂ with ⟨rfl, -⟩ | hold₂
      · rfl
      · exact absurd hold₂ (h.notMem hx k₂)
    · rcases hmem k₂ y h₂ with ⟨rfl, rfl⟩ | hold₂
      · exact absurd hold₁ (h.notMem hx k₁)
      · exact h.disjoint k₁ k₂ y hold₁ hold₂
  key := hkey
  suffix := hsuffix

theorem Walk.key_add [DecidableEq κ] (x : ν) (k : κ) (w : Walk κ ν) : (w.add x k).key = w.key := by
  unfold Walk.add
  split <;> rfl

theorem Good.add [DecidableEq κ] {x : ν} {k : κ} (h : Good heads s) (hk : k ∈ heads)
    (hx : ∀ k ∈ heads, x ∉ s.lists k) : Good heads (s.add x k) := by
  apply h.put hk hx
  · exact List.perm_append_singleton x (s.lists k)
  · intro w hw
    obtain ⟨v, hv, rfl⟩ := List.mem_map.mp hw
    rw [Walk.key_add]
    exact h.key v hv
  · intro w hw
    obtain ⟨v, hv, rfl⟩ := List.mem_map.mp hw
    rw [Walk.key_add]
    have hsuf := h.suffix v hv
    unfold Walk.add
    split
    · next hgrow =>
        rw [hgrow.1, Function.update_self]
        rw [hgrow.1] at hsuf
        obtain ⟨front, hfront⟩ := hsuf
        exact ⟨front, by rw [← hfront, List.append_assoc]⟩
    · next hgrow =>
        by_cases hkey : v.key = k
        · have hnil : v.rest = [] := by
            simpa [hkey] using hgrow
          rw [hnil]
          exact List.nil_suffix
        · rw [Function.update_of_ne hkey]
          exact hsuf

theorem Good.addFirst [DecidableEq κ] {x : ν} {k : κ} (h : Good heads s) (hk : k ∈ heads)
    (hx : ∀ k ∈ heads, x ∉ s.lists k) : Good heads (s.addFirst x k) := by
  apply h.put hk hx (List.Perm.refl _) h.key
  intro w hw
  by_cases hkey : w.key = k
  · have hsuf := h.suffix w hw
    rw [hkey] at hsuf ⊢
    rw [Function.update_self]
    exact hsuf.trans (List.suffix_cons x _)
  · rw [Function.update_of_ne hkey]
    exact h.suffix w hw

theorem Good.advance {ws : List (Walk κ ν)} {k : κ} {rest : List ν} (h : Good heads s)
    (hk : k ∈ heads) (hrest : rest <:+ s.lists k) (hws : ∀ w ∈ ws, w ∈ s.walks) :
    Good heads (s.advance ws k rest).1 := by
  cases rest with
  | nil =>
      exact ⟨h.off, h.nodup, h.disjoint, fun w hw => h.key w (hws w hw),
        fun w hw => h.suffix w (hws w hw)⟩
  | cons x rest =>
      refine ⟨h.off, h.nodup, h.disjoint, ?_, ?_⟩
      · intro w hw
        rcases List.mem_cons.mp hw with rfl | hw
        · exact hk
        · exact h.key w (hws w hw)
      · intro w hw
        rcases List.mem_cons.mp hw with rfl | hw
        · exact (List.suffix_cons x rest).trans hrest
        · exact h.suffix w (hws w hw)

/-! ## Events -/

/-- What the walk with `d` walks outside it is seen to visit. -/
def visits (d : Nat) (events : List (Event ν)) : List ν :=
  events.filterMap fun
    | .visit d' x => if d' = d then some x else none
    | _ => none

/-- The events are those of a walk with `d` walks outside it, from its start to
its end, and it was not given up. -/
def Whole (d : Nat) (events : List (Event ν)) : Prop :=
  ∃ front, events = front ++ [.finish d true] ∧ ∀ c, .finish d c ∉ front

theorem visits_visit (d : Nat) (x : ν) : visits d [.visit d x] = [x] := by simp [visits]

theorem visits_visit_of_ne {d d' : Nat} (h : d' ≠ d) (x : ν) : visits d [.visit d' x] = [] := by
  simp [visits, h]

theorem Whole.cons {d : Nat} {e : Event ν} {events : List (Event ν)} (h : Whole d (e :: events)) :
    e = .finish d true ∧ events = [] ∨ (∀ c, e ≠ .finish d c) ∧ Whole d events := by
  obtain ⟨front, hfront, hnot⟩ := h
  cases front with
  | nil =>
      left
      cases hfront
      exact ⟨rfl, rfl⟩
  | cons e' front =>
      right
      cases hfront
      refine ⟨?_, front, rfl, fun c hc => hnot c (List.mem_cons_of_mem _ hc)⟩
      intro c hc
      exact hnot c (hc ▸ List.mem_cons_self)

theorem visits_cons (d : Nat) (e : Event ν) (events : List (Event ν)) :
    visits d (e :: events) = visits d [e] ++ visits d events := by
  rw [visits, visits, visits, ← List.filterMap_append]
  rfl

/-- How far the walk with `d` walks outside it has come, which started on `xs`
and has visited `seen`: as for the elements in `keep`, `seen` and what it has
yet to visit make up `xs`. -/
def Underway (keep : ν → Prop) [DecidablePred keep] (d : Nat) (xs seen : List ν)
    (s : State κ ν) : Prop :=
  ∃ inner w outer, s.walks = inner ++ w :: outer ∧ outer.length = d ∧
    seen.filter keep ++ w.rest.filter keep = xs.filter keep ∧
    ∀ x, keep x → x ∈ s.lists w.key

variable {keep : ν → Prop} [DecidablePred keep] {d : Nat} {xs seen : List ν}

/-- A walk inside another one goes on or ends. -/
theorem Underway.inner {inner outer : List (Walk κ ν)} {w : Walk κ ν} {k : κ} {rest : List ν}
    (hd : outer.length = d)
    (hseen : seen.filter keep ++ w.rest.filter keep = xs.filter keep)
    (hkeep : ∀ x, keep x → x ∈ s.lists w.key) :
    Underway keep d xs (seen ++ visits d [(s.advance (inner ++ w :: outer) k rest).2])
        (s.advance (inner ++ w :: outer) k rest).1 ∧
      ∀ c, (s.advance (inner ++ w :: outer) k rest).2 ≠ .finish d c := by
  have hne : (inner ++ w :: outer).length ≠ d := by
    rw [List.length_append, List.length_cons]
    omega
  cases rest with
  | nil =>
      refine ⟨⟨inner, w, outer, rfl, hd, ?_, hkeep⟩, ?_⟩
      · simpa [State.advance, visits] using hseen
      · intro c hc
        injection hc with hdepth
        exact hne hdepth
  | cons y rest =>
      refine ⟨⟨⟨k, rest⟩ :: inner, w, outer, rfl, hd, ?_, hkeep⟩, ?_⟩
      · rw [State.advance, visits_visit_of_ne hne, List.append_nil]
        exact hseen
      · intro c hc
        cases hc

theorem mem_put [DecidableEq κ] {k k' : κ} {xs : List ν} {x : ν}
    (hsub : ∀ y ∈ s.lists k, y ∈ xs) (hx : x ∈ s.lists k') :
    x ∈ Function.update s.lists k xs k' := by
  by_cases hk : k' = k
  · subst hk
    rw [Function.update_self]
    exact hsub x hx
  · rw [Function.update_of_ne hk]
    exact hx

section Step

variable [DecidableEq κ] [DecidableEq ν] {e : Event ν}

/-- The innermost walk goes on. -/
theorem step_next (h : s.step .next = some (s', e)) :
    ∃ w ws, s.walks = w :: ws ∧ (s', e) = s.advance ws w.key w.rest := by
  simp only [State.step] at h
  split at h
  · cases h
  · next w ws hw => exact ⟨w, ws, hw, (Option.some.inj h).symm⟩

/-- The innermost walk is given up. -/
theorem step_stop (h : s.step .stop = some (s', e)) :
    ∃ w ws, s.walks = w :: ws ∧ s' = { s with walks := ws } ∧ e = .finish ws.length false := by
  simp only [State.step] at h
  split at h
  · cases h
  · next w ws hw =>
      cases h
      exact ⟨w, ws, hw, rfl, rfl⟩

/-- **Every step keeps the lists and the walks together.** -/
theorem Good.step {a : Action κ ν} (h : Good heads s) (hok : Allowed heads s a)
    (hstep : s.step a = some (s', e)) : Good heads s' := by
  cases a with
  | start k =>
      have hadv : s' = (s.advance s.walks k (s.lists k)).1 :=
        congrArg Prod.fst (Option.some.inj hstep).symm
      rw [hadv]
      exact h.advance hok List.suffix_rfl fun _ hw => hw
  | next =>
      obtain ⟨w, ws, hw, hadv⟩ := step_next hstep
      have hmem : w ∈ s.walks := hw ▸ List.mem_cons_self
      have hs' : s' = (s.advance ws w.key w.rest).1 := congrArg Prod.fst hadv
      rw [hs']
      exact h.advance (h.key w hmem) (h.suffix w hmem) fun v hv =>
        hw ▸ List.mem_cons_of_mem w hv
  | stop =>
      obtain ⟨w, ws, hw, rfl, -⟩ := step_stop hstep
      have hmem : ∀ v ∈ ws, v ∈ s.walks := fun v hv => hw ▸ List.mem_cons_of_mem w hv
      exact ⟨h.off, h.nodup, h.disjoint, fun v hv => h.key v (hmem v hv),
        fun v hv => h.suffix v (hmem v hv)⟩
  | del x =>
      cases hstep
      exact h.del x
  | add x k =>
      cases hstep
      exact h.add hok.1 hok.2
  | addFirst x k =>
      cases hstep
      exact h.addFirst hok.1 hok.2

/-- **What a walk hands out is on its list at that moment.** -/
theorem visit_mem {a : Action κ ν} {d : Nat} {x : ν} (h : Good heads s)
    (hstep : s.step a = some (s', .visit d x)) :
    ∃ w ws, s'.walks = w :: ws ∧ ws.length = d ∧ x ∈ s'.lists w.key := by
  have hadvance : ∀ ws k rest, rest <:+ s.lists k → (s', .visit d x) = s.advance ws k rest →
      ∃ w ws, s'.walks = w :: ws ∧ ws.length = d ∧ x ∈ s'.lists w.key := by
    intro ws k rest hrest hadv
    cases rest with
    | nil => cases hadv
    | cons y rest =>
        cases hadv
        exact ⟨_, ws, rfl, rfl, hrest.subset List.mem_cons_self⟩
  cases a with
  | start k => exact hadvance _ k _ List.suffix_rfl (Option.some.inj hstep).symm
  | next =>
      obtain ⟨w, ws, hw, hadv⟩ := step_next hstep
      exact hadvance ws w.key w.rest (h.suffix w (hw ▸ List.mem_cons_self)) hadv
  | stop =>
      obtain ⟨w, ws, -, -, he⟩ := step_stop hstep
      cases he
  | del x => cases hstep
  | add x k => cases hstep
  | addFirst x k => cases hstep

/-- Nothing faults. -/
theorem exists_step {a : Action κ ν} (hok : Allowed heads s a) : ∃ r, s.step a = some r := by
  cases a with
  | next | stop =>
      obtain ⟨w, ws, hw⟩ := List.exists_cons_of_ne_nil hok
      simp [State.step, hw]
  | start k => exact ⟨_, rfl⟩
  | del x => exact ⟨_, rfl⟩
  | add x k => exact ⟨_, rfl⟩
  | addFirst x k => exact ⟨_, rfl⟩

/-! ## Whole walks -/

/-- No `x` is deleted. -/
def Stays (acts : List (Action κ ν)) (x : ν) : Prop := .del x ∉ acts

instance (acts : List (Action κ ν)) (x : ν) : Decidable (Stays acts x) :=
  inferInstanceAs (Decidable (_ ∉ _))

/-- **One step.**  A walk stays underway until it ends, and then it has visited
all that was to be kept. -/
theorem Underway.step {a : Action κ ν} (h : Underway keep d xs seen s) (hgood : Good heads s)
    (hok : Allowed heads s a) (hdel : ∀ x, a = .del x → ¬keep x)
    (hstep : s.step a = some (s', e)) :
    (Underway keep d xs (seen ++ visits d [e]) s' ∧ ∀ c, e ≠ .finish d c) ∨
      e = .finish d false ∨ e = .finish d true ∧ seen.filter keep = xs.filter keep := by
  obtain ⟨inner, w, outer, hwalks, hd, hseen, hkeep⟩ := h
  have hsilent : visits d [(.silent : Event ν)] = [] := rfl
  cases a with
  | start k =>
      have hadv := (Option.some.inj hstep).symm
      rw [hwalks] at hadv
      have hinner := @Underway.inner _ _ s _ _ _ _ _ inner _ _ k (s.lists k) hd hseen hkeep
      rw [← hadv] at hinner
      exact .inl hinner
  | next =>
      obtain ⟨v, ws, hv, hadv⟩ := step_next hstep
      rw [hwalks] at hv
      cases inner with
      | nil =>
          cases hv
          cases hrest : w.rest with
          | nil =>
              rw [hrest] at hadv hseen
              cases hadv
              right; right
              exact ⟨by rw [hd], by simpa using hseen⟩
          | cons y rest =>
              rw [hrest] at hadv hseen
              cases hadv
              left
              refine ⟨⟨[], ⟨w.key, rest⟩, outer, rfl, hd, ?_, hkeep⟩, fun c hc => by cases hc⟩
              rw [← hseen]
              rw [← hd, visits_visit, List.filter_append, List.append_assoc, ← List.filter_append]
              rfl
      | cons i inner =>
          rw [List.cons_append] at hv
          obtain ⟨rfl, rfl⟩ := List.cons.inj hv
          have hinner := @Underway.inner _ _ s _ _ _ _ _ inner _ _ i.key i.rest hd hseen hkeep
          rw [← hadv] at hinner
          exact .inl hinner
  | stop =>
      obtain ⟨v, ws, hv, rfl, rfl⟩ := step_stop hstep
      rw [hwalks] at hv
      cases inner with
      | nil =>
          cases hv
          right; left
          rw [hd]
      | cons i inner =>
          obtain ⟨rfl, rfl⟩ := List.cons.inj hv
          left
          refine ⟨⟨inner, w, outer, rfl, hd, ?_, hkeep⟩, ?_⟩
          · simpa [visits] using hseen
          · intro c hc
            injection hc with hdepth
            have hlength : (inner ++ w :: outer).length = d := hdepth
            rw [List.length_append, List.length_cons] at hlength
            omega
  | del x =>
      cases hstep
      left
      refine ⟨⟨inner.map (Walk.del x), w.del x, outer.map (Walk.del x), ?_, ?_, ?_, ?_⟩,
        fun c hc => by cases hc⟩
      · simp [State.del, hwalks]
      · simpa using hd
      · have hfilter : (w.del x).rest.filter keep = w.rest.filter keep := by
          rw [Walk.del, List.filter_filter]
          apply List.filter_congr
          intro y hy
          have hne : keep y → y ≠ x := by
            intro hyk heq
            exact hdel x rfl (heq ▸ hyk)
          by_cases hyk : keep y
          · simp [hyk, hne hyk]
          · simp [hyk]
        rw [hfilter, hsilent, List.append_nil]
        exact hseen
      · intro y hyk
        have hne : y ≠ x := by
          intro heq
          exact hdel x rfl (heq ▸ hyk)
        exact List.mem_filter.mpr ⟨hkeep y hyk, by simpa using hne⟩
  | add x k =>
      cases hstep
      have hx : ¬keep x := fun hxk => hgood.notMem hok.2 w.key (hkeep x hxk)
      left
      refine ⟨⟨inner.map (Walk.add x k), w.add x k, outer.map (Walk.add x k), ?_, ?_, ?_, ?_⟩,
        fun c hc => by cases hc⟩
      · simp [State.add, hwalks]
      · simpa using hd
      · have hfilter : (w.add x k).rest.filter keep = w.rest.filter keep := by
          unfold Walk.add
          split
          · simp [hx]
          · rfl
        rw [hfilter, hsilent, List.append_nil]
        exact hseen
      · intro y hyk
        rw [Walk.key_add]
        exact mem_put (fun _ hy => List.mem_append_left _ hy) (hkeep y hyk)
  | addFirst x k =>
      cases hstep
      left
      refine ⟨⟨inner, w, outer, hwalks, hd, ?_, ?_⟩, fun c hc => by cases hc⟩
      · rw [hsilent, List.append_nil]
        exact hseen
      · intro y hyk
        exact mem_put (fun _ hy => List.mem_cons_of_mem _ hy) (hkeep y hyk)

/-- A walk that is underway and comes to its end has visited all that was to be
kept, by induction on what is done. -/
theorem Underway.run {acts : List (Action κ ν)} {events : List (Event ν)}
    (h : Underway keep d xs seen s) (hgood : Good heads s)
    (hok : Machine.Along State.step (Allowed heads) s acts)
    (hdel : ∀ x, .del x ∈ acts → ¬keep x)
    (hrun : Machine.run State.step s acts = some (s', events)) (hwhole : Whole d events) :
    (seen ++ visits d events).filter keep = xs.filter keep := by
  induction acts generalizing s seen events with
  | nil =>
      cases hrun
      obtain ⟨front, hfront, -⟩ := hwhole
      simp at hfront
  | cons a acts ih =>
      obtain ⟨s₁, e, rest, ha, hrest, rfl⟩ := Machine.run_cons_eq_some.mp hrun
      have hstep := h.step hgood hok.1 (fun x hx => hdel x (hx ▸ List.mem_cons_self)) ha
      rw [visits_cons, ← List.append_assoc]
      rcases hwhole.cons with ⟨rfl, rfl⟩ | ⟨hnot, hwhole⟩
      · rcases hstep with ⟨-, hnot⟩ | hfalse | ⟨-, hdone⟩
        · exact absurd rfl (hnot true)
        · cases hfalse
        · simpa [visits] using hdone
      · rcases hstep with ⟨hunder, -⟩ | hfalse | ⟨htrue, -⟩
        · exact ih hunder (hgood.step hok.1 ha) (hok.2 (s₁, e) ha)
            (fun x hx => hdel x (List.mem_cons_of_mem _ hx)) hrest hwhole
        · exact absurd hfalse (hnot false)
        · exact absurd htrue (hnot true)

/-- **A whole walk** visits the elements that nobody deletes once each, in the
order in which they stood on the list at its start. -/
theorem visits_of_whole {k : κ} {acts : List (Action κ ν)} {events : List (Event ν)}
    (hgood : Good heads s) (hok : Machine.Along State.step (Allowed heads) s (.start k :: acts))
    (hrun : Machine.run State.step s (.start k :: acts) = some (s', events))
    (hwhole : Whole s.walks.length events) :
    (visits s.walks.length events).filter (fun x => x ∈ s.lists k ∧ Stays acts x)
      = (s.lists k).filter (Stays acts ·) := by
  obtain ⟨s₁, e, rest, hstart, hrest, rfl⟩ := Machine.run_cons_eq_some.mp hrun
  have hfilter : (s.lists k).filter (fun x => x ∈ s.lists k ∧ Stays acts x)
      = (s.lists k).filter (Stays acts ·) := by
    apply List.filter_congr
    intro x hx
    simp [hx]
  have hdel : ∀ x, .del x ∈ acts → ¬(x ∈ s.lists k ∧ Stays acts x) := fun x hx hkeep => hkeep.2 hx
  have hadv := (Option.some.inj hstart).symm
  rw [← hfilter]
  cases hlist : s.lists k with
  | nil => simp
  | cons y ys =>
      have hgood₁ := hgood.step hok.1 hstart
      rw [hlist] at hadv
      cases hadv
      rcases hwhole.cons with ⟨he, -⟩ | ⟨-, hwhole⟩
      · cases he
      · rw [visits_cons, visits_visit, ← hlist]
        refine @Underway.run _ _ heads _ _ _ _ _ (s.lists k) _ _ _ acts rest ?_ hgood₁
          (hok.2 _ hstart) hdel hrest hwhole
        refine ⟨[], ⟨k, ys⟩, s.walks, rfl, rfl, ?_, fun x hx => hx.1⟩
        rw [← List.filter_append, hlist]
        rfl

end Step

end Walks
