import Libubox.Uloop.Fd

/-!
# No callback after a deletion

After `uloop_fd_delete` has returned the callback of the descriptor is quiet:
nothing reports it, no fetched entry names it, and no frame in progress holds
events for it (`Quiet`).  Every step keeps that until the descriptor is added
again.

The deletion itself makes it so only where it clears the frames that hold
events (`ClearsStack`).  It looks at the current mode of the descriptor, and at
the innermost frame: a descriptor that was made level-triggered while events
were buffered for it, or that has events buffered in an outer frame, is called
once more.
-/

namespace Libubox.Uloop.Descriptors

open Machine

/-! ## The promise -/

/-- The event calls the callback of the descriptor. -/
def Event.Calls (fd : Nat) : Event → Prop
  | .events _ call => ∃ events, call = some (fd, events)
  | _ => False

/-- A deletion, in what a run shows, is followed by a call of the callback only
behind a registration. -/
def QuietAfterDelete (trace : List Event) : Prop :=
  ∀ fd front mid back e, trace = front ++ .deleted fd :: (mid ++ e :: back) →
    e.Calls fd → .added fd ∈ mid

/-- The frame would call the callback of the descriptor once more. -/
def Frame.Holds (f : Frame) (fd : Nat) : Prop :=
  f.fd = some fd ∧ f.events &&& ULOOP_EVENT_MASK ≠ 0

instance (f : Frame) (fd : Nat) : Decidable (f.Holds fd) := inferInstanceAs (Decidable (_ ∧ _))

/-- Only the innermost frame of the descriptor may hold events. -/
def OnlyInnermost (fd : Nat) : List Frame → Prop
  | [] => True
  | f :: rest =>
      if f.fd = some fd then ∀ g ∈ rest, ¬g.Holds fd else OnlyInnermost fd rest

/-- No frame holds events for the descriptor, or only its innermost frame does
while the descriptor is registered and edge-triggered. -/
def ClearsStack (s : Loop) (fd : Nat) : Prop :=
  (∀ f ∈ s.fdStack, ¬f.Holds fd) ∨
    ((s.fd fd).registered = true ∧ (s.fd fd).has ULOOP_EDGE_TRIGGER ∧
      OnlyInnermost fd s.fdStack)

/-- Every deletion clears what the frames hold. -/
def DeletesCleanly (s : Loop) : Action → Prop
  | .fdDelete fd => ClearsStack s fd
  | .fdAdd fd flags _ => flags &&& (ULOOP_READ ||| ULOOP_WRITE) = 0 → ClearsStack s fd
  | _ => True

instance (fd : Nat) : ∀ fs, Decidable (OnlyInnermost fd fs)
  | [] => inferInstanceAs (Decidable True)
  | f :: rest =>
      have : Decidable (OnlyInnermost fd rest) := instDecidableOnlyInnermost fd rest
      inferInstanceAs (Decidable
        (if f.fd = some fd then ∀ g ∈ rest, ¬g.Holds fd else OnlyInnermost fd rest))

instance (s : Loop) (fd : Nat) : Decidable (ClearsStack s fd) :=
  inferInstanceAs (Decidable (_ ∨ _))

instance : ∀ s a, Decidable (DeletesCleanly s a)
  | s, .fdDelete fd => inferInstanceAs (Decidable (ClearsStack s fd))
  | s, .fdAdd fd flags _ => inferInstanceAs (Decidable
      (flags &&& (ULOOP_READ ||| ULOOP_WRITE) = 0 → ClearsStack s fd))
  | _, .run => inferInstanceAs (Decidable True)
  | _, .setCancelled _ => inferInstanceAs (Decidable True)
  | _, .turn _ => inferInstanceAs (Decidable True)
  | _, .callbackReturns => inferInstanceAs (Decidable True)

/-! ## What holds in every state -/

/-- Only registered descriptors are polled, and a frame that still has its
descriptor is a frame of its callback. -/
structure Sound (s : Loop) : Prop where
  registered : ∀ u, s.polled u = true → (s.fd u).registered = true
  caller : ∀ g ∈ s.fdStack, ∀ u ∈ g.fd, u = g.caller
  cb : ∀ g ∈ s.fdStack, (s.fd g.caller).cb = true

@[simp] theorem mark_caller (f : Frame) (events : Option Bits) :
    (f.mark events).caller = f.caller := by
  cases events <;> rfl

theorem mark_fd {f : Frame} {events : Option Bits} {u : Nat} (h : u ∈ (f.mark events).fd) :
    u ∈ f.fd := by
  cases events with
  | none => cases h
  | some ev => exact h

theorem Sound.modify {s : Loop} (h : Sound s) (u : Nat) {f : UloopFd → UloopFd}
    (hf : ∀ d, (f d).cb = d.cb ∧ (f d).flags = d.flags ∧ (f d).registered = d.registered) :
    Sound (s.modify u f) := by
  refine ⟨?_, h.caller, ?_⟩
  · intro v hv
    have := h.registered v hv
    rw [modify_fd]
    split
    · next hvu =>
        rw [(hf _).2.2, ← hvu]
        exact this
    · exact this
  · intro g hg
    have := h.cb g hg
    rw [modify_fd]
    split
    · next hgu =>
        rw [(hf _).1, ← hgu]
        exact this
    · exact this

theorem Sound.delete {s : Loop} (h : Sound s) (fd : Nat) : Sound (uloopFdDelete s fd) := by
  refine ⟨?_, ?_, ?_⟩
  · intro u hu
    by_cases hne : u = fd
    · subst u
      cases hreg : (s.fd fd).registered with
      | false =>
          rw [delete_of_not_registered s fd hreg] at hu
          exact absurd (h.registered fd hu) (by simp [hreg])
      | true => simp [delete_of_registered s fd hreg] at hu
    · rw [delete_polled_of_ne s fd hne] at hu
      rw [delete_fd_of_ne s fd hne]
      exact h.registered u hu
  · intro g hg
    rcases mem_delete_fdStack s fd hg with hg | ⟨f, hf, -, rfl⟩
    · exact h.caller g hg
    · intro u hu
      rw [mark_caller]
      exact h.caller f hf u (mark_fd hu)
  · intro g hg
    rw [delete_cb]
    rcases mem_delete_fdStack s fd hg with hg | ⟨f, hf, -, rfl⟩
    · exact h.cb g hg
    · rw [mark_caller]
      exact h.cb f hf

theorem Sound.add {s : Loop} (h : Sound s) (fd : Nat) (flags : Bits) (ok : Bool) :
    Sound (uloopFdAdd s fd flags ok) := by
  by_cases hflags : flags &&& (ULOOP_READ ||| ULOOP_WRITE) = 0
  · rw [uloopFdAdd, if_pos hflags]
    exact h.delete fd
  · have hsame := add_same s fd flags ok hflags
    have hcb : ∀ u, ((uloopFdAdd s fd flags ok).fd u).cb = (s.fd u).cb := by
      intro u
      by_cases hu : u = fd
      · rw [hu, (add_self s fd flags ok hflags).1]
      · rw [(add_of_ne s fd flags ok hflags hu).1]
    refine ⟨?_, ?_, ?_⟩
    · intro u hu
      by_cases hne : u = fd
      · subst u
        rcases (add_self s fd flags ok hflags).2.2 hu with hreg | ⟨hpolled, hreg⟩
        · exact hreg
        · rw [hreg]
          exact h.registered fd hpolled
      · obtain ⟨hfd, hpolled⟩ := add_of_ne s fd flags ok hflags hne
        rw [hpolled] at hu
        rw [hfd]
        exact h.registered u hu
    · rw [hsame.2]
      exact h.caller
    · rw [hsame.2]
      intro g hg
      rw [hcb]
      exact h.cb g hg

theorem Sound.stackEvent {s : Loop} (h : Sound s) (fd : Nat) (events : Option Bits) :
    Sound (uloopFdStackEvent s fd events).1 := by
  rw [fdStackEvent_eq]
  refine ⟨h.registered, ?_, ?_⟩
  · intro g hg u hu
    rcases mem_fdStackEvent hg with hg | ⟨f, hf, -, rfl⟩
    · exact h.caller g hg u hu
    · rw [mark_caller]
      exact h.caller f hf u (mark_fd hu)
  · intro g hg
    rcases mem_fdStackEvent hg with hg | ⟨f, hf, -, rfl⟩
    · exact h.cb g hg
    · rw [mark_caller]
      exact h.cb f hf

theorem Sound.fetchLoop {s : Loop} (h : Sound s) (es : List EpollEvent) :
    Sound (fetchLoop s es).1 :=
  fetchLoop_invariant _ (fun _ u _ hf hs => hs.modify u hf) (fun _ u _ hs => hs.delete u) h es

theorem Sound.runEventsLoop {s : Loop} (h : Sound s) (cs : List FdEvent) :
    Sound (runEventsLoop s cs).1 := by
  induction cs generalizing s with
  | nil => exact ⟨h.registered, h.caller, h.cb⟩
  | cons cur rest ih =>
      unfold Descriptors.runEventsLoop
      split
      · exact ih h
      · next fd _ =>
          split
          · next hcb =>
              have hstack := h.stackEvent fd (some cur.events)
              simp only
              split
              · exact ih hstack
              · refine ⟨hstack.registered, ?_, ?_⟩
                · intro g hg u hu
                  rcases List.mem_cons.mp hg with rfl | hg
                  · exact (Option.mem_some_iff.mp hu).symm
                  · exact hstack.caller g hg u hu
                · intro g hg
                  rcases List.mem_cons.mp hg with rfl | hg
                  · rw [fdStackEvent_eq]
                    exact hcb
                  · exact hstack.cb g hg
          · exact ih h

/-- What a turn of `uloop_run` can do. -/
theorem turn_cases {s s' : Loop} {es : List EpollEvent} {e : Event}
    (h : step s (.turn es) = some (s', e)) :
    (s.cancelled = true ∧ ∃ loops, s' = { s with loops } ∧ e = .silent) ∨
      (s.CanFetch es ∧ s' = (uloopRunEvents s es).1 ∧
        e = .events (uloopRunEvents s es).2.1 (uloopRunEvents s es).2.2) := by
  simp only [step] at h
  split at h
  · cases h
  · next depth outer _ =>
      split at h
      · unfold runTurn at h
        split at h
        · next hcancelled =>
            cases h
            exact .inl ⟨hcancelled, outer, rfl, rfl⟩
        · split at h
          · next hfetch =>
              cases h
              exact .inr ⟨hfetch, rfl, rfl⟩
          · cases h
      · cases h

/-- What the return of a callback can do. -/
theorem callbackReturns_cases {s s' : Loop} {e : Event}
    (h : step s .callbackReturns = some (s', e)) :
    ∃ f rest, s.fdStack = f :: rest ∧
      ((f.fd.isSome = true ∧ f.events &&& ULOOP_EVENT_MASK ≠ 0 ∧
          s' = { s with fdStack := { f with events := 0 } :: rest } ∧
          e = .events [] (some (f.caller, f.events &&& ULOOP_EVENT_MASK))) ∨
        ((f.fd = none ∨ f.events &&& ULOOP_EVENT_MASK = 0) ∧
          s' = { s with fdStack := rest } ∧ e = .events [] none)) := by
  simp only [step] at h
  split at h
  · cases h
  · next f rest hstack =>
      refine ⟨f, rest, hstack, ?_⟩
      split at h
      · unfold Descriptors.callbackReturns at h
        simp only at h
        split at h
        · next hagain =>
            cases h
            exact .inl ⟨hagain.1, hagain.2, rfl, rfl⟩
        · next hlast =>
            cases h
            refine .inr ⟨?_, rfl, rfl⟩
            by_cases hfd : f.fd = none
            · exact .inl hfd
            · right
              by_contra hmask
              exact hlast ⟨Option.isSome_iff_ne_none.mpr hfd, hmask⟩
      · cases h

theorem Sound.kept {s s' : Loop} {a : Action} {e : Event} (h : Sound s)
    (hstep : step s a = some (s', e)) : Sound s' := by
  cases a with
  | fdAdd fd flags ok =>
      simp only [step, Option.some.injEq, Prod.mk.injEq] at hstep
      exact hstep.1 ▸ h.add fd flags ok
  | fdDelete fd =>
      simp only [step, Option.some.injEq, Prod.mk.injEq] at hstep
      exact hstep.1 ▸ h.delete fd
  | run =>
      simp only [step, Option.some.injEq, Prod.mk.injEq] at hstep
      exact hstep.1 ▸ ⟨h.registered, h.caller, h.cb⟩
  | setCancelled value =>
      simp only [step, Option.some.injEq, Prod.mk.injEq] at hstep
      exact hstep.1 ▸ ⟨h.registered, h.caller, h.cb⟩
  | turn es =>
      rcases turn_cases hstep with ⟨-, loops, rfl, -⟩ | ⟨-, rfl, -⟩
      · exact ⟨h.registered, h.caller, h.cb⟩
      · unfold uloopRunEvents
        split
        · exact (h.fetchLoop es).runEventsLoop _
        · exact h.runEventsLoop _
  | callbackReturns =>
      obtain ⟨f, rest, hfs, ⟨-, -, rfl, -⟩ | ⟨-, rfl, -⟩⟩ := callbackReturns_cases hstep
      · have hf : f ∈ s.fdStack := by simp [hfs]
        refine ⟨h.registered, ?_, ?_⟩
        · intro g hg
          rcases List.mem_cons.mp hg with rfl | hg
          · exact h.caller f hf
          · exact h.caller g (by simp [hfs, hg])
        · intro g hg
          rcases List.mem_cons.mp hg with rfl | hg
          · exact h.cb f hf
          · exact h.cb g (by simp [hfs, hg])
      · exact ⟨h.registered, fun g hg => h.caller g (by simp [hfs, hg]),
          fun g hg => h.cb g (by simp [hfs, hg])⟩

theorem sound_initial (cb : Nat → Bool) : Sound (initial cb) :=
  ⟨by simp [initial], by simp [initial], by simp [initial]⟩

/-! ## A quiet descriptor -/

/-- The descriptor is not polled, no fetched entry is for it, and no frame
would call its callback again. -/
structure Quiet (fd : Nat) (s : Loop) : Prop where
  polled : s.polled fd = false
  curFds : ∀ c ∈ s.curFds, c.fd ≠ some fd
  fdStack : ∀ g ∈ s.fdStack, ¬g.Holds fd

theorem drop_fd {fd u : Nat} {c : FdEvent} (h : (c.drop fd).fd = some u) :
    c.fd = some u ∧ u ≠ fd := by
  unfold FdEvent.drop at h
  split at h
  · cases h
  · next hne =>
      refine ⟨h, ?_⟩
      rintro rfl
      exact hne h

/-- Clearing an entry of any descriptor gives nobody events. -/
theorem not_holds_mark_none (f : Frame) (fd : Nat) : ¬(f.mark none).Holds fd :=
  fun h => by cases h.1

theorem not_holds_mark {f : Frame} {fd u : Nat} {ev : Bits} (hfd : f.fd = some u)
    (hne : u ≠ fd) : ¬(f.mark (some ev)).Holds fd := by
  rintro ⟨h, -⟩
  change f.fd = some fd at h
  rw [hfd] at h
  exact hne (Option.some.inj h)

section

variable {s : Loop} {fd : Nat}

theorem Quiet.modify (h : Quiet fd s) (u : Nat) (f : UloopFd → UloopFd) :
    Quiet fd (s.modify u f) :=
  ⟨h.polled, h.curFds, h.fdStack⟩

theorem not_polled_delete {u : Nat} (h : s.polled fd = false) :
    (uloopFdDelete s u).polled fd = false := by
  by_cases hu : fd = u
  · subst u
    cases hreg : (s.fd fd).registered with
    | false =>
        rw [delete_of_not_registered s fd hreg]
        exact h
    | true => simp [delete_of_registered s fd hreg]
  · rw [delete_polled_of_ne s u hu]
    exact h

theorem Quiet.delete (h : Quiet fd s) (u : Nat) : Quiet fd (uloopFdDelete s u) := by
  refine ⟨not_polled_delete h.polled, ?_, ?_⟩
  · intro c hc hfd
    rw [delete_curFds] at hc
    obtain ⟨c', hc', rfl⟩ := List.mem_map.mp hc
    exact h.curFds c' hc' (drop_fd hfd).1
  · intro g hg
    rcases mem_delete_fdStack s u hg with hg | ⟨f, -, -, rfl⟩
    · exact h.fdStack g hg
    · exact not_holds_mark_none f fd

/-- **What a deletion does.**  Where it clears the stack, the descriptor is
quiet. -/
theorem Sound.quiet_delete (h : Sound s) (hclear : ClearsStack s fd) :
    Quiet fd (uloopFdDelete s fd) := by
  refine ⟨?_, ?_, ?_⟩
  · cases hpolled : s.polled fd with
    | false => exact not_polled_delete hpolled
    | true => simp [delete_of_registered s fd (h.registered fd hpolled)]
  · intro c hc hfd
    rw [delete_curFds] at hc
    obtain ⟨c, -, rfl⟩ := List.mem_map.mp hc
    exact (drop_fd hfd).2 rfl
  · intro g hg
    rcases hclear with hnone | ⟨hreg, hedge, honly⟩
    · rcases mem_delete_fdStack s fd hg with hg | ⟨f, -, -, rfl⟩
      · exact hnone g hg
      · exact not_holds_mark_none f fd
    · rcases delete_fdStack_cases s fd with ⟨heq, hnone⟩ | ⟨pre, f, post, hfs, hpre, hfd, heq⟩
      · rw [heq] at hg
        exact fun hholds => hnone hreg hedge g hg hholds.1
      · -- the innermost frame of the descriptor is the one that is cleared
        have hpost : ∀ g ∈ post, ¬g.Holds fd := by
          rw [hfs] at honly
          clear hfs heq
          induction pre with
          | nil => simpa [OnlyInnermost, hfd] using honly
          | cons p pre ih =>
              have hp := hpre p List.mem_cons_self
              rw [List.cons_append, OnlyInnermost, if_neg hp] at honly
              exact ih honly fun g hg => hpre g (List.mem_cons_of_mem _ hg)
        rw [heq] at hg
        rcases List.mem_append.mp hg with hg | hg
        · exact fun hholds => hpre g hg hholds.1
        · rcases List.mem_cons.mp hg with rfl | hg
          · exact not_holds_mark_none f fd
          · exact hpost g hg

theorem Quiet.add_of_ne (h : Quiet fd s) {u : Nat} (hu : fd ≠ u) (flags : Bits) (ok : Bool) :
    Quiet fd (uloopFdAdd s u flags ok) := by
  by_cases hflags : flags &&& (ULOOP_READ ||| ULOOP_WRITE) = 0
  · rw [uloopFdAdd, if_pos hflags]
    exact h.delete u
  · obtain ⟨hbatch, hstack⟩ := add_same s u flags ok hflags
    refine ⟨?_, ?_, ?_⟩
    · rw [(Descriptors.add_of_ne s u flags ok hflags hu).2]
      exact h.polled
    · rw [hbatch]
      exact h.curFds
    · rw [hstack]
      exact h.fdStack

/-- Fetching leaves a quiet descriptor quiet: `epoll_wait` does not report it. -/
theorem Quiet.fetchLoop (h : Quiet fd s) {es : List EpollEvent} (hfetch : s.CanFetch es) :
    Quiet fd (fetchLoop s es).1 ∧ ∀ c ∈ (fetchLoop s es).2.1, c.fd ≠ some fd := by
  refine ⟨fetchLoop_invariant _ (fun _ u f _ hs => hs.modify u f) (fun _ u _ hs => hs.delete u)
    h es, ?_⟩
  intro c hc hfd
  obtain ⟨e, he, hptr, -⟩ := mem_fetchLoop hc hfd
  have := hfetch.2 e he fd (by rw [hptr]; rfl)
  rw [h.polled] at this
  cases this

theorem Quiet.stackEvent (h : Quiet fd s) {u : Nat} (hu : u ≠ fd) (ev : Bits) :
    Quiet fd (uloopFdStackEvent s u (some ev)).1 := by
  rw [fdStackEvent_eq]
  refine ⟨h.polled, h.curFds, ?_⟩
  intro g hg
  rcases mem_fdStackEvent hg with hg | ⟨f, -, hfd, rfl⟩
  · exact h.fdStack g hg
  · exact not_holds_mark hfd hu

/-- Entries of other descriptors neither call a quiet one nor wake it. -/
theorem Quiet.runEventsLoop (h : Quiet fd s) {cs : List FdEvent}
    (hcs : ∀ c ∈ cs, c.fd ≠ some fd) :
    Quiet fd (runEventsLoop s cs).1 ∧ ∀ ev, (runEventsLoop s cs).2 ≠ some (fd, ev) := by
  induction cs generalizing s with
  | nil => exact ⟨⟨h.polled, by simp [Descriptors.runEventsLoop], h.fdStack⟩, fun ev => nofun⟩
  | cons cur rest ih =>
      have hrest : ∀ c ∈ rest, c.fd ≠ some fd := fun c hc => hcs c (List.mem_cons_of_mem _ hc)
      unfold Descriptors.runEventsLoop
      split
      · exact ih h hrest
      · next u hcur =>
          have hu : u ≠ fd := by
            rintro rfl
            exact hcs cur List.mem_cons_self hcur
          split
          · have hstack := h.stackEvent hu cur.events
            simp only
            split
            · exact ih hstack hrest
            · refine ⟨⟨hstack.polled, hrest, ?_⟩, ?_⟩
              · intro g hg
                rcases List.mem_cons.mp hg with rfl | hg
                · exact fun hholds => hu (Option.some.inj hholds.1)
                · exact hstack.fdStack g hg
              · intro ev hev
                exact hu (congrArg Prod.fst (Option.some.inj hev))
          · exact ih h hrest

theorem Quiet.runEvents (h : Quiet fd s) {es : List EpollEvent} (hfetch : s.CanFetch es) :
    Quiet fd (uloopRunEvents s es).1 ∧ ∀ ev, (uloopRunEvents s es).2.2 ≠ some (fd, ev) := by
  unfold uloopRunEvents
  split
  · obtain ⟨hquiet, hcs⟩ := h.fetchLoop hfetch
    exact hquiet.runEventsLoop hcs
  · exact h.runEventsLoop h.curFds

/-- **The step lemma.**  Until it is added again, a quiet descriptor stays
quiet and its callback is not called. -/
theorem Quiet.kept {s' : Loop} {a : Action} {e : Event} (h : Quiet fd s) (hsound : Sound s)
    (hstep : step s a = some (s', e)) (hadd : e ≠ .added fd) :
    Quiet fd s' ∧ ¬e.Calls fd := by
  cases a with
  | fdAdd u flags ok =>
      simp only [step, Option.some.injEq, Prod.mk.injEq] at hstep
      obtain ⟨rfl, rfl⟩ := hstep
      by_cases hflags : flags &&& (ULOOP_READ ||| ULOOP_WRITE) = 0
      · rw [if_pos hflags, uloopFdAdd, if_pos hflags]
        exact ⟨h.delete u, fun hc => hc⟩
      · rw [if_neg hflags] at hadd ⊢
        have hu : fd ≠ u := fun heq => hadd (congrArg Event.added heq.symm)
        exact ⟨h.add_of_ne hu flags ok, fun hc => hc⟩
  | fdDelete u =>
      simp only [step, Option.some.injEq, Prod.mk.injEq] at hstep
      obtain ⟨rfl, rfl⟩ := hstep
      exact ⟨h.delete u, fun hc => hc⟩
  | run =>
      simp only [step, Option.some.injEq, Prod.mk.injEq] at hstep
      obtain ⟨rfl, rfl⟩ := hstep
      exact ⟨⟨h.polled, h.curFds, h.fdStack⟩, fun hc => hc⟩
  | setCancelled value =>
      simp only [step, Option.some.injEq, Prod.mk.injEq] at hstep
      obtain ⟨rfl, rfl⟩ := hstep
      exact ⟨⟨h.polled, h.curFds, h.fdStack⟩, fun hc => hc⟩
  | turn es =>
      rcases turn_cases hstep with ⟨-, loops, rfl, rfl⟩ | ⟨hfetch, rfl, rfl⟩
      · exact ⟨⟨h.polled, h.curFds, h.fdStack⟩, fun hc => hc⟩
      · obtain ⟨hquiet, hcall⟩ := h.runEvents hfetch
        exact ⟨hquiet, fun ⟨ev, hev⟩ => hcall ev hev⟩
  | callbackReturns =>
      obtain ⟨f, rest, hfs, ⟨hfd, hmask, rfl, rfl⟩ | ⟨-, rfl, rfl⟩⟩ := callbackReturns_cases hstep
      · have hf : f ∈ s.fdStack := by simp [hfs]
        obtain ⟨u, hu⟩ := Option.isSome_iff_exists.mp hfd
        have hcaller : u = f.caller := hsound.caller f hf u hu
        have hne : f.caller ≠ fd := by
          intro heq
          apply h.fdStack f hf
          exact ⟨by rw [hu, hcaller, heq], hmask⟩
        refine ⟨⟨h.polled, h.curFds, ?_⟩, ?_⟩
        · intro g hg
          rcases List.mem_cons.mp hg with rfl | hg
          · exact fun hholds => hholds.2 (BitVec.zero_and)
          · exact h.fdStack g (by simp [hfs, hg])
        · rintro ⟨ev, hev⟩
          exact hne (congrArg Prod.fst (Option.some.inj hev))
      · refine ⟨⟨h.polled, h.curFds, fun g hg => h.fdStack g (by simp [hfs, hg])⟩, ?_⟩
        rintro ⟨ev, hev⟩
        cases hev

/-- A step that shows a deletion has called `uloop_fd_delete`. -/
theorem quiet_of_deleted {s' : Loop} {a : Action} (hsound : Sound s)
    (hclean : DeletesCleanly s a) (hstep : step s a = some (s', .deleted fd)) : Quiet fd s' := by
  cases a with
  | fdAdd u flags ok =>
      simp only [step, Option.some.injEq, Prod.mk.injEq] at hstep
      obtain ⟨rfl, hevent⟩ := hstep
      split at hevent
      · next hflags =>
          cases hevent
          rw [uloopFdAdd, if_pos hflags]
          exact hsound.quiet_delete (hclean hflags)
      · cases hevent
  | fdDelete u =>
      simp only [step, Option.some.injEq, Prod.mk.injEq] at hstep
      obtain ⟨rfl, hevent⟩ := hstep
      cases hevent
      exact hsound.quiet_delete hclean
  | run => simp [step] at hstep
  | setCancelled value => simp [step] at hstep
  | turn es =>
      rcases turn_cases hstep with ⟨-, loops, -, h⟩ | ⟨-, -, h⟩ <;> cases h
  | callbackReturns =>
      obtain ⟨f, rest, -, ⟨-, -, -, h⟩ | ⟨-, -, h⟩⟩ := callbackReturns_cases hstep <;> cases h

end

/-- **No callback after a deletion.**  In every run whose deletions clear what
the frames hold, a callback is called after the deletion of its descriptor only
when the descriptor has been added again. -/
theorem quietAfterDelete_of_clean (cb : Nat → Bool) (acts : List Action)
    (hclean : Along step DeletesCleanly (initial cb) acts) :
    ∀ r ∈ run step (initial cb) acts, QuietAfterDelete r.2 := by
  rintro ⟨s', trace⟩ hrun fd front mid back e htrace hcall
  subst htrace
  obtain ⟨bs, a, cs, s₁, s₂, rfl, hbs, hstep, hcs⟩ := exists_of_trace hrun
  obtain ⟨hclean₁, hclean₂⟩ := hclean.append hbs
  have hsound₁ : Sound s₁ :=
    run_invariant (fun _ _ _ _ hs _ hst => hs.kept hst) (sound_initial cb) hclean₁ hbs
  have hquiet : Sound s₂ ∧ Quiet fd s₂ :=
    ⟨hsound₁.kept hstep, quiet_of_deleted hsound₁ hclean₂.1 hstep⟩
  have hkeep : ∀ s a s' e, Sound s ∧ Quiet fd s → DeletesCleanly s a →
      step s a = some (s', e) → ¬e = .added fd → (Sound s' ∧ Quiet fd s') ∧ ¬e.Calls fd := by
    rintro s a s' e ⟨hs, hq⟩ - hst hne
    obtain ⟨hq', he⟩ := hq.kept hs hst hne
    exact ⟨⟨hs.kept hst, hq'⟩, he⟩
  have hnot : e ≠ .added fd := by
    rintro rfl
    exact hcall
  obtain ⟨o, ho, rfl⟩ := exists_opening hkeep hquiet (hclean₂.2 (s₂, _) hstep) hcs hnot hcall
  exact ho

/-- An edge-triggered descriptor is deleted while an event is buffered for its
callback in progress. -/
theorem quietAfterDelete_of_clean_buffered :
    let r := run step (initial fun _ => true)
      [.fdAdd 0 5 true, .run, .turn [⟨some 0, 1⟩], .run, .turn [⟨some 0, 1⟩], .fdDelete 0,
        .setCancelled true, .turn [], .callbackReturns]
    r.isSome = true ∧ ∀ q ∈ r, QuietAfterDelete q.2 :=
  ⟨rfl, quietAfterDelete_of_clean _ _ (by decide)⟩

/-- The descriptor is made level-triggered before it is deleted: the deletion
leaves the buffered event in the frame, and the callback is called with it. -/
theorem not_quietAfterDelete_level :
    ¬∀ q ∈ run step (initial fun _ => true)
      [.fdAdd 0 5 true, .run, .turn [⟨some 0, 1⟩], .run, .turn [⟨some 0, 1⟩], .fdAdd 0 1 true,
        .fdDelete 0, .setCancelled true, .turn [], .callbackReturns], QuietAfterDelete q.2 := by
  intro h
  have hmem := h _ rfl 0
    [.added 0, .silent, .events [] (some (0, 1)), .silent, .events [] none, .added 0]
    [.silent, .silent] [] (.events [] (some (0, 1))) rfl ⟨1, rfl⟩
  revert hmem
  decide

end Libubox.Uloop.Descriptors
