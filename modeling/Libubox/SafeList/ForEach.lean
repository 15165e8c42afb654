import Libubox.SafeList.Refine

/-!
# Iterations over safe lists

What can be relied on in a callback of `safe_list_for_each`, stated over the
pointers.  `Allowed` is what a callback may do: delete elements that are on a
list and add elements that are on none, call `safe_list_for_each` again, and
return.
-/

namespace Libubox.SafeList

open Walks (Action Event Good Whole Stays visits)
open Circles (Circle)
open Machine (run run_cons_eq_some)

variable {ν : Type*}

/-- `x` is on the list of the head `h`. -/
def OnList (s : State ν) (h x : ν) : Prop := ∃ xs, Circle s.list h xs ∧ h ∉ xs ∧ x ∈ xs

/-- What a callback may do. -/
def Allowed (heads : List ν) (s : State ν) : Action ν ν → Prop
  | .start h => h ∈ heads
  | .next | .stop => s.calls ≠ []
  | .del x => ∃ h ∈ heads, OnList s h x
  | .add x h | .addFirst x h => h ∈ heads ∧ x ∉ heads ∧ ∀ h' ∈ heads, ¬OnList s h' x

/-- The memory holds the lists `lists` under the heads, and nobody walks them. -/
structure Initial (heads : List ν) (lists : ν → List ν) (s : State ν) : Prop where
  off : ∀ h ∉ heads, lists h = []
  nodup : ∀ h, (lists h).Nodup
  disjoint : ∀ h h' x, x ∈ lists h → x ∈ lists h' → h = h'
  apart : ∀ h ∈ heads, ∀ h', h ∉ lists h'
  circle : ∀ h ∈ heads, Circle s.list h (lists h)
  unused : ∀ x, x ∈ heads ∨ (∃ h, x ∈ lists h) → s.i.held (.hook x) = none
  calls : s.calls = []

/-- An element that was on a list or has been added to one, or a head. -/
def Known (heads : List ν) (lists : ν → List ν) (acts : List (Action ν ν)) (x : ν) : Prop :=
  (x ∈ heads ∨ ∃ h, x ∈ lists h) ∨ ∃ a ∈ acts, added a x

variable {heads : List ν} {lists : ν → List ν} {known : ν → Prop} {s s' : State ν}
  {a : Walks.State ν ν}

theorem Rep.onList (h : Rep heads known s a) {k x : ν} (hk : k ∈ heads) :
    OnList s k x ↔ x ∈ a.lists k := by
  constructor
  · rintro ⟨xs, hcirc, hkxs, hx⟩
    rwa [(h.circle k hk).unique hcirc (h.apart k hk k) hkxs]
  · intro hx
    exact ⟨a.lists k, h.circle k hk, h.apart k hk k, hx⟩

theorem Rep.allowed_iff (h : Rep heads known s a) {act : Action ν ν} :
    Allowed heads s act ↔ Walks.Allowed heads a act ∧ ∀ x, added act x → x ∉ heads := by
  have hoff : ∀ x, (∀ k ∈ heads, ¬OnList s k x) ↔ ∀ k ∈ heads, x ∉ a.lists k := by
    intro x
    exact forall₂_congr fun k hk => not_congr (h.onList hk)
  cases act with
  | start k => simp [Allowed, Walks.Allowed, added]
  | next | stop => simp [Allowed, Walks.Allowed, added, h.calls]
  | del x =>
      have hon : (∃ k ∈ heads, OnList s k x) ↔ ∃ k ∈ heads, x ∈ a.lists k :=
        exists_congr fun k => and_congr_right fun hk => h.onList hk
      simp [Allowed, Walks.Allowed, added, hon]
  | add x k | addFirst x k =>
      simp only [Allowed, Walks.Allowed, added, hoff, forall_eq]
      tauto

theorem Initial.rep (h : Initial heads lists s) :
    Rep heads (Known heads lists []) s ⟨lists, []⟩ where
  circle := h.circle
  apart := h.apart
  knownHead k hk := .inl (.inl hk)
  knownElem k x hx := .inl (.inr ⟨k, hx⟩)
  calls := h.calls
  next inner w outer hw := by simp at hw
  registered := by
    refine ⟨fun _ => [], ⟨?_, fun _ => List.nodup_nil, fun _ _ _ hk => by cases hk⟩, ?_⟩
    · intro x hx
      rcases hx with hx | ⟨act, hact, -⟩
      · exact ⟨.hook x, rfl, h.unused x hx⟩
      · cases hact
    · simp

theorem Initial.good (h : Initial heads lists s) :
    Good heads (⟨lists, []⟩ : Walks.State ν ν) where
  off := h.off
  nodup := h.nodup
  disjoint := h.disjoint
  key _ hw := by cases hw
  suffix _ hw := by cases hw

variable [DecidableEq ν]

/-- **A run over the pointers is a run of the walks**, and does not fault. -/
theorem Rep.run (h : Rep heads known s a) (hgood : Good heads a) {acts : List (Action ν ν)}
    (hok : Machine.Along State.step (Allowed heads) s acts) :
    ∃ s' a' trace, run State.step s acts = some (s', trace) ∧
      run Walks.State.step a acts = some (a', trace) ∧
      Machine.Along Walks.State.step (Walks.Allowed heads) a acts ∧
      Rep heads (fun x => known x ∨ ∃ act ∈ acts, added act x) s' a' ∧ Good heads a' := by
  induction acts generalizing known s a with
  | nil => exact ⟨s, a, [], rfl, rfl, trivial, h.mono fun x => by simp, hgood⟩
  | cons act acts ih =>
      obtain ⟨hallowed, hadd⟩ := h.allowed_iff.mp hok.1
      obtain ⟨s₁, a₁, e, hs₁, ha₁, hrep₁⟩ := h.step hgood hallowed hadd
      obtain ⟨s', a', trace, hrun, hrun', halong, hrep, hgood'⟩ :=
        ih hrep₁ (hgood.step hallowed ha₁) (hok.2 (s₁, e) hs₁)
      refine ⟨s', a', e :: trace, run_cons_eq_some.mpr ⟨s₁, e, trace, hs₁, hrun, rfl⟩,
        run_cons_eq_some.mpr ⟨a₁, e, trace, ha₁, hrun', rfl⟩, ⟨hallowed, ?_⟩,
        hrep.mono fun x => by simp [or_assoc], hgood'⟩
      intro r hr
      rw [ha₁] at hr
      cases hr
      exact halong

/-- What may be done to the walks may be done over the pointers. -/
theorem Rep.along (h : Rep heads known s a) (hgood : Good heads a) {acts : List (Action ν ν)}
    (hok : Machine.Along Walks.State.step (Walks.Allowed heads) a acts)
    (hadd : ∀ act ∈ acts, ∀ x, added act x → x ∉ heads) :
    Machine.Along State.step (Allowed heads) s acts := by
  induction acts generalizing known s a with
  | nil => trivial
  | cons act acts ih =>
      have hact := hadd act List.mem_cons_self
      refine ⟨h.allowed_iff.mpr ⟨hok.1, hact⟩, ?_⟩
      obtain ⟨s₁, a₁, e, hs₁, ha₁, hrep₁⟩ := h.step hgood hok.1 hact
      intro r hr
      rw [hs₁] at hr
      cases hr
      exact ih hrep₁ (hgood.step hok.1 ha₁) (hok.2 (a₁, e) ha₁)
        fun b hb => hadd b (List.mem_cons_of_mem act hb)

/-- **Iterations over safe lists.**  Whatever the callbacks do, nothing faults;
an element is visited only while it is on the list of that iteration; an
iteration that runs to its end visits the elements that stay on the list
throughout once each, in list order; and when the outermost iteration has
returned, nothing is registered on any element or head. -/
theorem safeListForEach {s₀ : State ν} (hinit : Initial heads lists s₀)
    {acts : List (Action ν ν)} (hok : Machine.Along State.step (Allowed heads) s₀ acts) :
    ∃ s trace, run State.step s₀ acts = some (s, trace) ∧
      (∀ act s' d x, Allowed heads s act → s.step act = some (s', .visit d x) →
        ∃ h outer, s'.calls = h :: outer ∧ outer.length = d ∧ OnList s' h x) ∧
      (∀ h span s' events xs, Machine.Along State.step (Allowed heads) s (.start h :: span) →
        run State.step s (.start h :: span) = some (s', events) →
        Whole s.calls.length events → Circle s.list h xs → h ∉ xs →
        (visits s.calls.length events).filter (fun x => x ∈ xs ∧ Stays span x)
          = xs.filter (Stays span ·)) ∧
      (s.calls = [] → ∀ x, Known heads lists acts x → s.i.held (.hook x) = none) := by
  obtain ⟨s, a, trace, hrun, -, -, hrep, hgood⟩ := hinit.rep.run hinit.good hok
  refine ⟨s, trace, hrun, ?_, ?_, ?_⟩
  · intro act s' d x hact hstep
    obtain ⟨hallowed, hadd⟩ := hrep.allowed_iff.mp hact
    obtain ⟨s₁, a₁, e, hs₁, ha₁, hrep₁⟩ := hrep.step hgood hallowed hadd
    rw [hstep] at hs₁
    cases hs₁
    obtain ⟨w, ws, hw, hd, hx⟩ := Walks.visit_mem hgood ha₁
    have hgood₁ := hgood.step hallowed ha₁
    refine ⟨w.key, ws.map Walks.Walk.key, ?_, by rw [List.length_map, hd], ?_⟩
    · rw [hrep₁.calls, hw, List.map_cons]
    · exact (hrep₁.onList (hgood₁.key w (hw ▸ List.mem_cons_self))).mpr hx
  · intro h span s' events xs hspan hrun' hwhole hcirc hxs
    have hh : h ∈ heads := hspan.1
    have hlist : a.lists h = xs := (hrep.circle h hh).unique hcirc (hrep.apart h hh h) hxs
    have hlength : s.calls.length = a.walks.length := by rw [hrep.calls, List.length_map]
    obtain ⟨s₁, a₁, trace₁, hs₁, ha₁, halong, -, -⟩ := hrep.run hgood hspan
    rw [hrun'] at hs₁
    cases hs₁
    rw [hlength] at hwhole ⊢
    rw [← hlist]
    exact Walks.visits_of_whole hgood halong ha₁ hwhole
  · intro hcalls x hx
    have hwalks : a.walks = [] := by
      rw [hrep.calls, List.map_eq_nil_iff] at hcalls
      exact hcalls
    have hknown : (Known heads lists [] x) ∨ ∃ act ∈ acts, added act x := by
      rcases hx with hx | hx
      · exact .inl (.inl hx)
      · exact .inr hx
    refine (hrep.registered.held_eq_none hknown).mpr ?_
    intro j hj
    rw [hwalks] at hj
    cases hj

/-- The head 0 and the elements 1, 2 and 3. -/
def threeElements : State (Fin 5) where
  list :=
    { next := fun x => some (if x = 3 then 0 else x + 1)
      prev := fun x => some (if x = 0 then 3 else x - 1) }
  i := { held := fun _ => none, back := fun _ => .hook 0 }
  next := fun _ => 0
  calls := []

/-- In an iteration the next element is deleted, a nested one is given up, and
an element is added. -/
def deleteNext : List (Walks.Action (Fin 5) (Fin 5)) :=
  [.start 0, .del 2, .start 0, .del 1, .stop, .add 4 0, .next, .next, .next]

theorem threeElements_initial :
    Initial [0] (fun h => if h = 0 then [1, 2, 3] else []) threeElements where
  off := by decide
  nodup := by decide
  disjoint := by decide
  apart := by decide
  circle h hh := by
    obtain rfl : h = 0 := List.mem_singleton.mp hh
    simp [Circles.Circle, Circles.Links.Follows, threeElements]
  unused _ _ := rfl
  calls := rfl

theorem safeListForEach_deleteNext :
    ∃ s trace, run State.step threeElements deleteNext = some (s, trace) ∧
      (s.calls = [] → ∀ x, Known [0] (fun h => if h = 0 then [1, 2, 3] else []) deleteNext x →
        s.i.held (.hook x) = none) := by
  have halong : Machine.Along State.step (Allowed [0]) threeElements deleteNext :=
    threeElements_initial.rep.along threeElements_initial.good (by decide)
      (by simp [deleteNext, added])
  obtain ⟨s, trace, hrun, -, -, hnone⟩ := safeListForEach threeElements_initial halong
  exact ⟨s, trace, hrun, hnone⟩

end Libubox.SafeList
