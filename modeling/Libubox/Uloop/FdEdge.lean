import Libubox.Uloop.FdDelete

/-!
# Events of edge-triggered descriptors during recursion

A nested `uloop_run` may fetch an event of an edge-triggered descriptor whose
callback is in progress in an outer frame (`NestedFetch`).  The event is owed
to the callback (`Owed`): it waits in the batch, or in a frame that is not
popped before its callback was called with it.

What is owed are the READ and WRITE bits.  A frame whose events are masked to
nothing is popped, and a loop that is left takes what it has not handled of the
batch along to the next `uloop_run_events`.
-/

namespace Libubox.Uloop.Descriptors

open Machine

/-! ## The promise -/

/-- All bits of `b` are set. -/
def Contains (x b : Bits) : Prop := b &&& x = b

instance (x b : Bits) : Decidable (Contains x b) := inferInstanceAs (Decidable (_ = _))

/-- The event calls the callback with the bits `b`. -/
def Event.CallsWith (fd : Nat) (b : Bits) : Event → Prop
  | .events _ call => ∃ mask, call = some (fd, mask) ∧ Contains mask b
  | _ => False

/-- The action does not delete the descriptor. -/
def Action.Keeps (fd : Nat) : Action → Prop
  | .fdAdd u flags _ => u = fd → flags &&& (ULOOP_READ ||| ULOOP_WRITE) ≠ 0
  | .fdDelete u => u ≠ fd
  | _ => True

/-- The action leaves `ULOOP_ERROR_CB` set. -/
def Action.KeepsErrorCb (fd : Nat) : Action → Prop
  | .fdAdd u flags _ => u = fd → flags &&& ULOOP_ERROR_CB ≠ 0
  | _ => True

/-- In the run of `acts`, a nested loop fetches the entry `e` for the
edge-triggered descriptor `fd`, whose callback is in progress in the frame
`outer`, and the run goes on until that frame is popped. -/
structure NestedFetch (s : Loop) (acts : List Action) where
  before : Loop
  after : Loop
  fd : Nat
  e : EpollEvent
  es : List EpollEvent
  first : List Action
  body : List Action
  rest : List Action
  prior : List Event
  events : List Event
  inner : List Frame
  outer : Frame
  below : List Frame
  acts_eq : acts = first ++ .turn es :: (body ++ rest)
  run_first : run step s first = some (before, prior)
  running : before.cancelled = false
  fetches : before.curFds = []
  mem : e ∈ es
  ptr : e.ptr = some fd
  known : e.Known
  edge : (before.fd fd).has ULOOP_EDGE_TRIGGER
  errorCb : (before.fd fd).has ULOOP_ERROR_CB
  stack : before.fdStack = inner ++ outer :: below
  active : outer.caller = fd
  run_body : run step before (.turn es :: body) = some (after, events)
  inside : Along step (fun s _ => below.length < s.fdStack.length) before (.turn es :: body)
  popped : after.fdStack.length ≤ below.length

/-- Unless the application deletes the descriptor, its callback is called with
the bits of the entry before the frame is popped. -/
def Reinvoked (s : Loop) (acts : List Action) : Prop :=
  ∀ n : NestedFetch s acts, (∀ a ∈ n.body, a.Keeps n.fd) →
    ∃ ev ∈ n.events, ev.CallsWith n.fd n.e.bits

/-- The same for an entry with READ or WRITE and a frame whose descriptor was
not deleted before, or the entry is still to be handled when the frame is
popped. -/
def ReinvokedOrWaiting (s : Loop) (acts : List Action) : Prop :=
  ∀ n : NestedFetch s acts, (∀ a ∈ n.body, a.Keeps n.fd ∧ a.KeepsErrorCb n.fd) →
    n.outer.fd = some n.fd → n.e.bits ≠ 0 →
    (∃ ev ∈ n.events, ev.CallsWith n.fd n.e.bits) ∨
      ∃ c ∈ n.after.curFds, c.fd = some n.fd ∧ Contains c.events n.e.bits

/-! ## Bits -/

theorem Contains.or_right {x b : Bits} (h : Contains x b) (y : Bits) : Contains (y ||| x) b := by
  unfold Contains at *
  rw [BitVec.and_or_distrib_left, h]
  ext i
  simp
  tauto

theorem Contains.or_left {x b : Bits} (h : Contains x b) (y : Bits) : Contains (x ||| y) b := by
  rw [BitVec.or_comm]
  exact h.or_right y

theorem Contains.and {x y b : Bits} (hx : Contains x b) (hy : Contains y b) :
    Contains (x &&& y) b := by
  unfold Contains at *
  rw [← BitVec.and_assoc, hx, hy]

theorem Contains.ne_zero {x b : Bits} (h : Contains x b) (hb : b ≠ 0) : x ≠ 0 := by
  rintro rfl
  apply hb
  rw [← h]
  exact BitVec.and_zero

theorem contains_mask_bits (e : EpollEvent) : Contains ULOOP_EVENT_MASK e.bits := by
  unfold EpollEvent.bits
  split <;> split <;> decide

/-- The flag fits in the eight bits of `fd->flags`. -/
theorem errorCb_setWidth {flags : Bits} (h : flags &&& ULOOP_ERROR_CB ≠ 0) :
    (flags.setWidth 8).setWidth 32 &&& ULOOP_ERROR_CB ≠ 0 := by
  have heq : (flags.setWidth 8).setWidth 32 &&& ULOOP_ERROR_CB = flags &&& ULOOP_ERROR_CB := by
    apply BitVec.eq_of_getLsbD_eq
    intro i hi
    rw [BitVec.getLsbD_and, BitVec.getLsbD_and, BitVec.getLsbD_setWidth, BitVec.getLsbD_setWidth]
    by_cases hi8 : i < 8
    · simp [hi8, hi]
    · have hbit : ULOOP_ERROR_CB.getLsbD i = false := by
        change (BitVec.ofNat 32 64).getLsbD i = false
        rw [BitVec.getLsbD_ofNat, Nat.testBit_lt_two_pow]
        · simp
        · calc 64 < 2 ^ 8 := by decide
            _ ≤ 2 ^ i := Nat.pow_le_pow_right (by decide) (Nat.le_of_not_lt hi8)
      rw [hbit, Bool.and_false, Bool.and_false]
  rw [heq]
  exact h

/-! ## What is owed -/

/-- An entry of the stack at or above depth `base`, that is, with at least
`base` entries below it. -/
def Above (base : Nat) (g : Frame) (fs : List Frame) : Prop :=
  ∃ pre post, fs = pre ++ g :: post ∧ base ≤ post.length

/-- The frame at depth `base` still has the descriptor, and the descriptor is
not deleted on an error. -/
structure Anchored (fd base : Nat) (s : Loop) : Prop where
  frame : ∃ pre g post, s.fdStack = pre ++ g :: post ∧ post.length = base ∧ g.fd = some fd
  errorCb : (s.fd fd).has ULOOP_ERROR_CB

/-- A frame at or above the depth holds the bits. -/
def Buffered (fd base : Nat) (b : Bits) (s : Loop) : Prop :=
  ∃ g, Above base g s.fdStack ∧ g.fd = some fd ∧ Contains g.events b

/-- An entry to be handled holds the bits. -/
def Waits (fd : Nat) (b : Bits) (cs : List FdEvent) : Prop :=
  ∃ c ∈ cs, c.fd = some fd ∧ Contains c.events b

/-- Another entry of a list is still there, with as many entries behind it,
when one is replaced. -/
theorem split_replace {α : Type} {pre post pre' post' : List α} {g f : α} (f' : α)
    (h : pre ++ g :: post = pre' ++ f :: post') :
    (g = f ∧ post = post') ∨
      ∃ pre'' post'', pre' ++ f' :: post' = pre'' ++ g :: post'' ∧ post''.length = post.length := by
  rcases List.append_eq_append_iff.mp h with ⟨as, rfl, has⟩ | ⟨bs, rfl, hbs⟩
  · cases as with
    | nil =>
        cases has
        exact .inl ⟨rfl, rfl⟩
    | cons a as =>
        cases has
        exact .inr ⟨pre, as ++ f' :: post', by simp, by simp⟩
  · cases bs with
    | nil =>
        cases hbs
        exact .inl ⟨rfl, rfl⟩
    | cons b bs =>
        cases hbs
        exact .inr ⟨pre' ++ f' :: bs, post, by simp, rfl⟩

/-- What is known of one entry above a depth is kept when an entry is replaced
by one of which the same is known. -/
theorem exists_above_replace {base : Nat} {p : Frame → Prop} (pre : List Frame)
    {post : List Frame} {f f' : Frame} (hf : p f → p f') (h : ∃ g, Above base g (pre ++ f :: post) ∧ p g) :
    ∃ g, Above base g (pre ++ f' :: post) ∧ p g := by
  obtain ⟨g, ⟨pre', post', hsplit, hbase⟩, hg⟩ := h
  rcases split_replace f' hsplit.symm with ⟨rfl, rfl⟩ | ⟨pre'', post'', heq, hlen⟩
  · exact ⟨f', ⟨pre, post', rfl, hbase⟩, hf hg⟩
  · exact ⟨g, ⟨pre'', post'', heq, hlen ▸ hbase⟩, hg⟩

/-- The same for the entry at the depth itself. -/
theorem exists_at_replace {base : Nat} {p : Frame → Prop} (pre : List Frame)
    {post : List Frame} {f f' : Frame} (hf : p f → p f') (h : ∃ pre' g post', pre ++ f :: post = pre' ++ g :: post' ∧
      post'.length = base ∧ p g) :
    ∃ pre' g post', pre ++ f' :: post = pre' ++ g :: post' ∧ post'.length = base ∧ p g := by
  obtain ⟨pre', g, post', hsplit, hbase, hg⟩ := h
  rcases split_replace f' hsplit.symm with ⟨rfl, rfl⟩ | ⟨pre'', post'', heq, hlen⟩
  · exact ⟨pre, f', post', rfl, hbase, hf hg⟩
  · exact ⟨pre'', g, post'', heq, hlen.trans hbase, hg⟩

section

variable {s : Loop} {fd base : Nat} {b : Bits}

theorem Anchored.modify (h : Anchored fd base s) (u : Nat) {f : UloopFd → UloopFd}
    (hf : ∀ d, (f d).flags = d.flags) : Anchored fd base (s.modify u f) := by
  refine ⟨h.frame, ?_⟩
  rw [modify_fd]
  split
  · next hu =>
      unfold UloopFd.has
      rw [hf, ← hu]
      exact h.errorCb
  · exact h.errorCb

theorem Anchored.delete_of_ne (h : Anchored fd base s) {u : Nat} (hu : fd ≠ u) :
    Anchored fd base (uloopFdDelete s u) := by
  refine ⟨?_, ?_⟩
  · rcases delete_fdStack_cases s u with ⟨heq, -⟩ | ⟨pre, f, post, hfs, -, hfd, heq⟩
    · rw [heq]
      exact h.frame
    · rw [heq]
      have hframe := h.frame
      rw [hfs] at hframe
      refine exists_at_replace _ ?_ hframe
      intro hf
      rw [hfd] at hf
      exact absurd (Option.some.inj hf).symm hu
  · rw [delete_fd_of_ne s u hu]
    exact h.errorCb

theorem Buffered.delete_of_ne (h : Buffered fd base b s) {u : Nat} (hu : fd ≠ u) :
    Buffered fd base b (uloopFdDelete s u) := by
  unfold Buffered
  rcases delete_fdStack_cases s u with ⟨heq, -⟩ | ⟨pre, f, post, hfs, -, hfd, heq⟩
  · rw [heq]
    exact h
  · rw [heq]
    unfold Buffered at h
    rw [hfs] at h
    refine exists_above_replace _ ?_ h
    rintro ⟨hf, -⟩
    rw [hfd] at hf
    exact absurd (Option.some.inj hf).symm hu

theorem Waits.drop_of_ne {cs : List FdEvent} (h : Waits fd b cs) {u : Nat} (hu : fd ≠ u) :
    Waits fd b (cs.map (FdEvent.drop u)) := by
  obtain ⟨c, hc, hfd, hbits⟩ := h
  refine ⟨c, ?_, hfd, hbits⟩
  have hdrop : c.drop u = c := by
    unfold FdEvent.drop
    rw [if_neg]
    rw [hfd]
    exact fun heq => hu (Option.some.inj heq)
  rw [← hdrop]
  exact List.mem_map_of_mem hc

/-- An event of any descriptor leaves the anchor and what is buffered. -/
theorem Anchored.stackEvent (h : Anchored fd base s) (u : Nat) (ev : Bits) :
    Anchored fd base (uloopFdStackEvent s u (some ev)).1 := by
  rcases fdStackEvent_cases s u (some ev) with ⟨heq, -⟩ | ⟨pre, f, post, hfs, -, -, -, heq⟩
  · rw [heq]
    exact h
  · rw [heq]
    have hframe := h.frame
    rw [hfs] at hframe
    exact ⟨exists_at_replace (p := fun g => g.fd = some fd) _
      (fun (hf : f.fd = some fd) => hf) hframe, h.errorCb⟩

theorem Buffered.stackEvent (h : Buffered fd base b s) (u : Nat) (ev : Bits) :
    Buffered fd base b (uloopFdStackEvent s u (some ev)).1 := by
  rcases fdStackEvent_cases s u (some ev) with ⟨heq, -⟩ | ⟨pre, f, post, hfs, -, -, -, heq⟩
  · rw [heq]
    exact h
  · rw [heq]
    unfold Buffered at h
    rw [hfs] at h
    exact exists_above_replace (p := fun g => g.fd = some fd ∧ Contains g.events b) _
      (fun (hf : f.fd = some fd ∧ Contains f.events b) => ⟨hf.1, hf.2.or_left _⟩) h

/-- An event that is buffered is buffered at or above the anchor: that is a
frame of the descriptor, and the innermost one takes the event. -/
theorem Anchored.buffered_of_stackEvent (h : Anchored fd base s) {ev : Bits}
    (hev : Contains ev b) (hdone : (uloopFdStackEvent s fd (some ev)).2 = true) :
    Buffered fd base b (uloopFdStackEvent s fd (some ev)).1 := by
  rcases fdStackEvent_cases s fd (some ev) with ⟨heq, -⟩ | ⟨pre, f, post, hfs, -, hpre, hfd, heq⟩
  · rw [heq] at hdone
    cases hdone
  · rw [heq]
    refine ⟨f.mark (some ev), ⟨pre, post, rfl, ?_⟩, hfd, ?_⟩
    · obtain ⟨pre', g, post', hsplit, hbase, hg⟩ := h.frame
      rw [hfs] at hsplit
      rcases List.append_eq_append_iff.mp hsplit with ⟨as, -, has⟩ | ⟨bs, hbs, hcons⟩
      · have hlen := congrArg List.length has
        simp only [List.length_cons, List.length_append] at hlen
        omega
      · cases bs with
        | nil =>
            cases hcons
            exact Nat.le_of_eq hbase.symm
        | cons c bs =>
            cases hcons
            refine absurd hg (hpre g ?_)
            rw [hbs]
            simp
    · exact (hev.or_left _).or_right _

/-- The bits are owed to the callback of the descriptor: they wait in the
batch, or in a frame at or above the depth. -/
structure Owed (fd base : Nat) (b : Bits) (s : Loop) : Prop where
  sound : Sound s
  anchored : Anchored fd base s
  owed : Waits fd b s.curFds ∨ Buffered fd base b s

theorem Anchored.exists_caller (h : Anchored fd base s) (hsound : Sound s) :
    (s.fd fd).cb = true := by
  obtain ⟨pre, g, post, hfs, -, hg⟩ := h.frame
  have hmem : g ∈ s.fdStack := by simp [hfs]
  have hcaller : fd = g.caller := hsound.caller g hmem fd hg
  rw [hcaller]
  exact hsound.cb g hmem

/-- A frame pushed on top changes neither. -/
theorem Anchored.push (h : Anchored fd base s) (cs : List FdEvent) (f : Frame) :
    Anchored fd base { s with curFds := cs, fdStack := f :: s.fdStack } := by
  obtain ⟨pre, g, post, hfs, hbase, hg⟩ := h.frame
  exact ⟨⟨f :: pre, g, post, by simp [hfs], hbase, hg⟩, h.errorCb⟩

theorem Buffered.push (h : Buffered fd base b s) (cs : List FdEvent) (f : Frame) :
    Buffered fd base b { s with curFds := cs, fdStack := f :: s.fdStack } := by
  obtain ⟨g, ⟨pre, post, hfs, hbase⟩, hg⟩ := h
  exact ⟨g, ⟨f :: pre, post, by simp [hfs], hbase⟩, hg⟩

/-- Handling the batch up to the first callback calls the one the bits are owed
to with them, or they stay owed. -/
theorem runEventsLoop_owed (hsound : Sound s) (hanchor : Anchored fd base s)
    {cs : List FdEvent} (howed : Waits fd b cs ∨ Buffered fd base b s) :
    (∃ mask, (runEventsLoop s cs).2 = some (fd, mask) ∧ Contains mask b) ∨
      Owed fd base b (runEventsLoop s cs).1 := by
  induction cs generalizing s with
  | nil =>
      right
      refine ⟨hsound.runEventsLoop [], ⟨hanchor.frame, hanchor.errorCb⟩, ?_⟩
      rcases howed with ⟨c, hc, -⟩ | hbuffered
      · cases hc
      · exact .inr hbuffered
  | cons cur rest ih =>
      -- an entry that is not the one that holds the bits leaves it in the rest
      have hskip : ∀ s', (¬(cur.fd = some fd ∧ Contains cur.events b)) →
          (Buffered fd base b s → Buffered fd base b s') →
          Waits fd b rest ∨ Buffered fd base b s' := by
        intro s' hnot hkeep
        rcases howed with ⟨c, hc, hfd, hbits⟩ | hbuffered
        · rcases List.mem_cons.mp hc with rfl | hc
          · exact absurd ⟨hfd, hbits⟩ hnot
          · exact .inl ⟨c, hc, hfd, hbits⟩
        · exact .inr (hkeep hbuffered)
      have hsound' := hsound.runEventsLoop (cur :: rest)
      unfold runEventsLoop at hsound' ⊢
      cases hcur : cur.fd with
      | none =>
          simp only
          exact ih hsound hanchor (hskip s (by simp [hcur]) id)
      | some u =>
          simp only [hcur] at hsound' ⊢
          by_cases hcb : (s.fd u).cb = true
          · rw [if_pos hcb] at hsound' ⊢
            cases hdone : (uloopFdStackEvent s u (some cur.events)).2 with
            | true =>
                rw [if_pos rfl]
                refine ih (hsound.stackEvent u _) (hanchor.stackEvent u _) ?_
                by_cases hbits : cur.fd = some fd ∧ Contains cur.events b
                · right
                  obtain ⟨hfd, hbits⟩ := hbits
                  rw [hcur] at hfd
                  cases hfd
                  exact hanchor.buffered_of_stackEvent hbits hdone
                · exact hskip _ hbits fun h => h.stackEvent u _
            | false =>
                rw [hdone] at hsound'
                simp only [Bool.false_eq_true, if_false] at hsound' ⊢
                by_cases hbits : cur.fd = some fd ∧ Contains cur.events b
                · left
                  obtain ⟨hfd, hbits⟩ := hbits
                  rw [hcur] at hfd
                  cases hfd
                  exact ⟨cur.events, rfl, hbits⟩
                · right
                  refine ⟨hsound', (hanchor.stackEvent u _).push _ _, ?_⟩
                  rcases hskip _ hbits fun h => h.stackEvent u cur.events with hwait | hbuffered
                  · exact .inl hwait
                  · exact .inr (hbuffered.push _ _)
          · rw [if_neg hcb] at hsound' ⊢
            refine ih hsound hanchor (hskip s ?_ id)
            rintro ⟨hfd, -⟩
            rw [hcur] at hfd
            cases hfd
            exact hcb (hanchor.exists_caller hsound)

/-- Fetching does not delete a descriptor with `ULOOP_ERROR_CB`. -/
theorem Anchored.fetchLoop (h : Anchored fd base s) (es : List EpollEvent) :
    Anchored fd base (fetchLoop s es).1 := by
  refine fetchLoop_invariant _ (fun _ u f hf hs => hs.modify u fun d => (hf d).2.1) ?_ h es
  intro s u hcb hs
  refine hs.delete_of_ne ?_
  rintro rfl
  exact hcb hs.errorCb

theorem Buffered.fetchLoop (h : Buffered fd base b s) (hanchor : Anchored fd base s)
    (es : List EpollEvent) : Buffered fd base b (fetchLoop s es).1 := by
  have hboth : Anchored fd base (Descriptors.fetchLoop s es).1 ∧
      Buffered fd base b (Descriptors.fetchLoop s es).1 := by
    refine fetchLoop_invariant (fun s => Anchored fd base s ∧ Buffered fd base b s)
      ?_ ?_ ⟨hanchor, h⟩ es
    · rintro s u f hf ⟨hs, hbuf⟩
      exact ⟨hs.modify u fun d => (hf d).2.1, hbuf⟩
    · rintro s u hcb ⟨hs, hbuf⟩
      have hu : fd ≠ u := by
        rintro rfl
        exact hcb hs.errorCb
      exact ⟨hs.delete_of_ne hu, hbuf.delete_of_ne hu⟩
  exact hboth.2

theorem mem_fetchLoop_of_known {es : List EpollEvent} {e : EpollEvent} (he : e ∈ es)
    (hptr : e.ptr = some fd) (hknown : e.Known) :
    (⟨some fd, e.bits⟩ : FdEvent) ∈ (Descriptors.fetchLoop s es).2.1 := by
  induction es generalizing s with
  | nil => cases he
  | cons e' es ih =>
      rcases List.mem_cons.mp he with rfl | he
      · have hentry : (fetchOne s e).2.1 = ⟨some fd, e.bits⟩ := by
          simp [fetchOne, hptr, hknown]
        exact hentry ▸ List.mem_cons_self
      · exact List.mem_cons_of_mem _ (ih he)

theorem Owed.runEvents (h : Owed fd base b s) (es : List EpollEvent) :
    (∃ mask, (uloopRunEvents s es).2.2 = some (fd, mask) ∧ Contains mask b) ∨
      Owed fd base b (uloopRunEvents s es).1 := by
  unfold uloopRunEvents
  split
  · next hempty =>
      refine runEventsLoop_owed (h.sound.fetchLoop es) (h.anchored.fetchLoop es) (.inr ?_)
      rcases h.owed with ⟨c, hc, -⟩ | hbuffered
      · rw [hempty] at hc
        cases hc
      · exact hbuffered.fetchLoop h.anchored es
  · exact runEventsLoop_owed h.sound h.anchored h.owed

theorem Owed.delete_of_ne (h : Owed fd base b s) {u : Nat} (hu : fd ≠ u) :
    Owed fd base b (uloopFdDelete s u) := by
  refine ⟨h.sound.delete u, h.anchored.delete_of_ne hu, ?_⟩
  rw [delete_curFds]
  exact h.owed.imp (fun hw => hw.drop_of_ne hu) fun hbuf => hbuf.delete_of_ne hu

theorem Owed.add (h : Owed fd base b s) {u : Nat} {flags : Bits} {ok : Bool}
    (hkeeps : (Action.fdAdd u flags ok).Keeps fd)
    (herror : (Action.fdAdd u flags ok).KeepsErrorCb fd) :
    Owed fd base b (uloopFdAdd s u flags ok) := by
  by_cases hflags : flags &&& (ULOOP_READ ||| ULOOP_WRITE) = 0
  · rw [uloopFdAdd, if_pos hflags]
    exact h.delete_of_ne fun hu => hkeeps hu.symm hflags
  · obtain ⟨hbatch, hstack⟩ := add_same s u flags ok hflags
    refine ⟨h.sound.add u flags ok, ⟨?_, ?_⟩, ?_⟩
    · rw [hstack]
      exact h.anchored.frame
    · by_cases hu : fd = u
      · subst u
        unfold UloopFd.has
        rw [(add_self s fd flags ok hflags).2.1]
        exact errorCb_setWidth (herror rfl)
      · rw [(add_of_ne s u flags ok hflags hu).1]
        exact h.anchored.errorCb
    · unfold Buffered
      rw [hbatch, hstack]
      exact h.owed

/-- The innermost frame returns: it calls its callback with the bits it holds,
or the bits are held elsewhere; a frame at the depth that is popped leaves them
in the batch. -/
theorem Owed.callbackReturns {s' : Loop} {e : Event} (h : Owed fd base b s) (hb : b ≠ 0)
    (hmask : Contains ULOOP_EVENT_MASK b) (hstep : step s .callbackReturns = some (s', e)) :
    e.CallsWith fd b ∨ Owed fd base b s' ∨
      (s'.fdStack.length ≤ base ∧ Waits fd b s'.curFds) := by
  have hsound' := h.sound.kept hstep
  obtain ⟨f, rest, hfs, ⟨hfd, -, rfl, rfl⟩ | ⟨hlast, rfl, rfl⟩⟩ := callbackReturns_cases hstep
  · have hf : f ∈ s.fdStack := by simp [hfs]
    by_cases hbits : f.fd = some fd ∧ Contains f.events b
    · left
      have hcaller : fd = f.caller := h.sound.caller f hf fd hbits.1
      exact ⟨_, by rw [hcaller], hbits.2.and hmask⟩
    · right
      left
      have hframe := h.anchored.frame
      rw [hfs] at hframe
      refine ⟨hsound', ⟨?_, h.anchored.errorCb⟩, ?_⟩
      · exact exists_at_replace (p := fun g => g.fd = some fd) []
          (fun (hf : f.fd = some fd) => hf) hframe
      · refine h.owed.imp id fun hbuf => ?_
        unfold Buffered at hbuf
        rw [hfs] at hbuf
        exact exists_above_replace (p := fun g => g.fd = some fd ∧ Contains g.events b) []
          (fun (hf : f.fd = some fd ∧ Contains f.events b) => absurd hf hbits) hbuf
  · -- a frame that holds the bits is not popped
    have hnot : ¬(f.fd = some fd ∧ Contains f.events b) := by
      rintro ⟨hfd, hbits⟩
      rcases hlast with hnone | hzero
      · rw [hnone] at hfd
        cases hfd
      · exact (hbits.and hmask).ne_zero hb hzero
    right
    obtain ⟨pre, g, post, hsplit, hbase, hg⟩ := h.anchored.frame
    rw [hfs] at hsplit
    cases pre with
    | nil =>
        cases hsplit
        right
        refine ⟨Nat.le_of_eq hbase, ?_⟩
        rcases h.owed with hwait | ⟨g', ⟨pre', post', hsplit', hbase'⟩, hg'⟩
        · exact hwait
        · rw [hfs] at hsplit'
          cases pre' with
          | nil =>
              cases hsplit'
              exact absurd hg' hnot
          | cons p pre' =>
              have hlen := congrArg List.length (List.cons.inj hsplit').2
              simp only [List.append_eq, List.length_append, List.length_cons] at hlen
              omega
    | cons p pre =>
        left
        refine ⟨hsound', ⟨⟨pre, g, post, (List.cons.inj hsplit).2, hbase, hg⟩,
          h.anchored.errorCb⟩, ?_⟩
        rcases h.owed with hwait | ⟨g', ⟨pre', post', hsplit', hbase'⟩, hg'⟩
        · exact .inl hwait
        · rw [hfs] at hsplit'
          cases pre' with
          | nil =>
              cases hsplit'
              exact absurd hg' hnot
          | cons p' pre' =>
              exact .inr ⟨g', ⟨pre', post', (List.cons.inj hsplit').2, hbase'⟩, hg'⟩

/-- **The step lemma.** -/
theorem Owed.kept {s' : Loop} {a : Action} {e : Event} (h : Owed fd base b s) (hb : b ≠ 0)
    (hmask : Contains ULOOP_EVENT_MASK b) (hkeeps : a.Keeps fd ∧ a.KeepsErrorCb fd)
    (hstep : step s a = some (s', e)) :
    e.CallsWith fd b ∨ Owed fd base b s' ∨
      (s'.fdStack.length ≤ base ∧ Waits fd b s'.curFds) := by
  have hsound' := h.sound.kept hstep
  cases a with
  | fdAdd u flags ok =>
      simp only [step, Option.some.injEq, Prod.mk.injEq] at hstep
      obtain ⟨rfl, -⟩ := hstep
      exact .inr (.inl (h.add hkeeps.1 hkeeps.2))
  | fdDelete u =>
      simp only [step, Option.some.injEq, Prod.mk.injEq] at hstep
      obtain ⟨rfl, -⟩ := hstep
      exact .inr (.inl (h.delete_of_ne fun hu => hkeeps.1 hu.symm))
  | run =>
      simp only [step, Option.some.injEq, Prod.mk.injEq] at hstep
      obtain ⟨rfl, -⟩ := hstep
      exact .inr (.inl ⟨hsound', ⟨h.anchored.frame, h.anchored.errorCb⟩, h.owed⟩)
  | setCancelled value =>
      simp only [step, Option.some.injEq, Prod.mk.injEq] at hstep
      obtain ⟨rfl, -⟩ := hstep
      exact .inr (.inl ⟨hsound', ⟨h.anchored.frame, h.anchored.errorCb⟩, h.owed⟩)
  | turn es =>
      rcases turn_cases hstep with ⟨-, loops, rfl, -⟩ | ⟨-, rfl, rfl⟩
      · exact .inr (.inl ⟨hsound', ⟨h.anchored.frame, h.anchored.errorCb⟩, h.owed⟩)
      · rcases h.runEvents es with hcall | howed
        · exact .inl hcall
        · exact .inr (.inl howed)
  | callbackReturns => exact h.callbackReturns hb hmask hstep

theorem Owed.run {s' : Loop} {as : List Action} {trace : List Event} (h : Owed fd base b s)
    (hb : b ≠ 0) (hmask : Contains ULOOP_EVENT_MASK b)
    (hkeeps : ∀ a ∈ as, a.Keeps fd ∧ a.KeepsErrorCb fd)
    (hinside : Along step (fun s _ => base < s.fdStack.length) s as)
    (hrun : Machine.run step s as = some (s', trace)) (hpopped : s'.fdStack.length ≤ base) :
    (∃ ev ∈ trace, ev.CallsWith fd b) ∨ Waits fd b s'.curFds := by
  induction as generalizing s trace with
  | nil =>
      cases hrun
      obtain ⟨pre, g, post, hfs, hbase, -⟩ := h.anchored.frame
      rw [hfs, List.length_append, List.length_cons] at hpopped
      omega
  | cons a as ih =>
      obtain ⟨s₁, e, rest, hstep, hrest, rfl⟩ := run_cons_eq_some.mp hrun
      rcases h.kept hb hmask (hkeeps a List.mem_cons_self) hstep with
        hcall | howed | ⟨hshort, hwait⟩
      · exact .inl ⟨e, List.mem_cons_self, hcall⟩
      · rcases ih howed (fun a' ha' => hkeeps a' (List.mem_cons_of_mem _ ha'))
          (hinside.2 (s₁, e) hstep) hrest with ⟨ev, hev, hcall⟩ | hwait
        · exact .inl ⟨ev, List.mem_cons_of_mem _ hev, hcall⟩
        · exact .inr hwait
      · -- the frame is popped: the run ends here
        cases as with
        | nil =>
            cases hrest
            exact .inr hwait
        | cons a' as =>
            have hdeep : base < s₁.fdStack.length := (hinside.2 (s₁, e) hstep).1
            omega

end

/-- **No READ or WRITE is lost during recursion.**  Between the fetch and the
end of the outer frame the callback is called with the bits of the entry, or
the entry is still to be handled. -/
theorem reinvokedOrWaiting (cb : Nat → Bool) (acts : List Action) :
    ReinvokedOrWaiting (initial cb) acts := by
  intro n hkeeps houter hbits
  have hsound : Sound n.before :=
    run_invariant (fun _ _ _ _ hs _ hst => hs.kept hst) (sound_initial cb)
      (along_true _ _) n.run_first
  have hanchor : Anchored n.fd n.below.length n.before :=
    ⟨⟨n.inner, n.outer, n.below, n.stack, rfl, houter⟩, n.errorCb⟩
  obtain ⟨s₁, e, rest, hstep, hrest, hevents⟩ := run_cons_eq_some.mp n.run_body
  have hwait : Waits n.fd n.e.bits (fetchLoop n.before n.es).2.1 :=
    ⟨_, mem_fetchLoop_of_known n.mem n.ptr n.known, rfl, BitVec.and_self⟩
  rw [hevents]
  rcases turn_cases hstep with ⟨hcancelled, -⟩ | ⟨-, rfl, rfl⟩
  · rw [n.running] at hcancelled
    cases hcancelled
  · have hrun : uloopRunEvents n.before n.es = _ := if_pos n.fetches
    rcases runEventsLoop_owed (hsound.fetchLoop n.es) (hanchor.fetchLoop n.es) (.inl hwait) with
      hcall | howed
    · refine .inl ⟨_, List.mem_cons_self, ?_⟩
      rw [hrun]
      exact hcall
    · rw [← show (uloopRunEvents n.before n.es).1 = _ from congrArg Prod.fst hrun] at howed
      rcases howed.run hbits (contains_mask_bits n.e) hkeeps (n.inside.2 (_, _) hstep) hrest
        n.popped with ⟨ev, hev, hcall⟩ | hwait
      · exact .inl ⟨ev, List.mem_cons_of_mem _ hev, hcall⟩
      · exact .inr hwait

/-- Three runs in which the callback is not called again before its frame is
popped.  In the first the nested loop is ended by the callback of the entry in
front, and the READ is still to be handled.  In the second the entry is an
error without READ or WRITE, and its buffered marker is masked away.  In the
third the callback, called twice over while the descriptor was level-triggered,
has deleted it and added it again, and the outer of its two frames takes the
event. -/
theorem not_reinvoked :
    ¬Reinvoked (initial fun _ => true)
        [.fdAdd 0 69 true, .fdAdd 1 1 true, .run, .turn [⟨some 0, 1⟩], .run,
          .turn [⟨some 1, 1⟩, ⟨some 0, 1⟩], .setCancelled true, .callbackReturns, .turn [],
          .callbackReturns] ∧
      ¬Reinvoked (initial fun _ => true)
        [.fdAdd 0 69 true, .run, .turn [⟨some 0, 1⟩], .run, .turn [⟨some 0, 8⟩],
          .setCancelled true, .turn [], .callbackReturns] ∧
      ¬Reinvoked (initial fun _ => true)
        [.fdAdd 0 65 true, .run, .turn [⟨some 0, 1⟩], .run, .turn [⟨some 0, 1⟩], .fdAdd 0 69 true,
          .fdDelete 0, .fdAdd 0 69 true, .run, .turn [⟨some 0, 1⟩], .setCancelled true, .turn [],
          .callbackReturns] := by
  refine ⟨?_, ?_, ?_⟩
  · intro h
    obtain ⟨ev, hev, hcall⟩ := h
      { first := [.fdAdd 0 69 true, .fdAdd 1 1 true, .run, .turn [⟨some 0, 1⟩], .run]
        es := [⟨some 1, 1⟩, ⟨some 0, 1⟩], e := ⟨some 0, 1⟩, fd := 0
        body := [.setCancelled true, .callbackReturns, .turn [], .callbackReturns]
        rest := [], before := _, after := _, prior := _, inner := [], outer := ⟨some 0, 0, 0⟩
        below := []
        events := [.events [] (some (1, 1)), .silent, .events [] none, .silent, .events [] none]
        acts_eq := rfl, run_first := rfl, running := rfl, fetches := rfl, mem := by decide
        ptr := rfl, known := by decide, edge := by decide, errorCb := by decide, stack := rfl
        active := rfl, run_body := rfl, inside := by decide, popped := Nat.le_refl 0 }
      (by simp [Action.Keeps])
    simp only [List.mem_cons, List.not_mem_nil, or_false] at hev
    rcases hev with rfl | rfl | rfl | rfl | rfl <;> simp [Event.CallsWith] at hcall
  · intro h
    obtain ⟨ev, hev, hcall⟩ := h
      { first := [.fdAdd 0 69 true, .run, .turn [⟨some 0, 1⟩], .run]
        es := [⟨some 0, 8⟩], e := ⟨some 0, 8⟩, fd := 0
        body := [.setCancelled true, .turn [], .callbackReturns]
        rest := [], before := _, after := _, prior := _, inner := [], outer := ⟨some 0, 0, 0⟩
        below := []
        events := [.events [] none, .silent, .silent, .events [] none]
        acts_eq := rfl, run_first := rfl, running := rfl, fetches := rfl, mem := by decide
        ptr := rfl, known := by decide, edge := by decide, errorCb := by decide, stack := rfl
        active := rfl, run_body := rfl, inside := by decide, popped := Nat.le_refl 0 }
      (by simp [Action.Keeps])
    simp only [List.mem_cons, List.not_mem_nil, or_false] at hev
    rcases hev with rfl | rfl | rfl | rfl <;> simp [Event.CallsWith] at hcall
  · intro h
    obtain ⟨ev, hev, hcall⟩ := h
      { first := [.fdAdd 0 65 true, .run, .turn [⟨some 0, 1⟩], .run, .turn [⟨some 0, 1⟩],
          .fdAdd 0 69 true, .fdDelete 0, .fdAdd 0 69 true, .run]
        es := [⟨some 0, 1⟩], e := ⟨some 0, 1⟩, fd := 0
        body := [.setCancelled true, .turn [], .callbackReturns]
        rest := [], before := _, after := _, prior := _, inner := [], outer := ⟨none, 0, 0⟩
        below := [⟨some 0, 0, 0⟩]
        events := [.events [] none, .silent, .silent, .events [] none]
        acts_eq := rfl, run_first := rfl, running := rfl, fetches := rfl, mem := by decide
        ptr := rfl, known := by decide, edge := by decide, errorCb := by decide, stack := rfl
        active := rfl, run_body := rfl, inside := by decide, popped := Nat.le_refl 1 }
      (by simp [Action.Keeps])
    simp only [List.mem_cons, List.not_mem_nil, or_false] at hev
    rcases hev with rfl | rfl | rfl | rfl <;> simp [Event.CallsWith] at hcall

end Libubox.Uloop.Descriptors
