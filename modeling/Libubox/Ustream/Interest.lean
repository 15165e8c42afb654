import Libubox.Ustream.Accounting
import Libubox.Ustream.Fd

/-!
# What a descriptor stream waits for

The flags of the descriptor follow from the fields of the stream whenever
`ustream_fd_set_uloop` is called.  `Interested` says what has to hold between two
calls of it: data that is queued comes behind a write that was short, and nothing
that makes the stream readable goes without a call.
-/

namespace Libubox.Ustream

open Machine (run run_invariant)
open Uloop.Descriptors (UloopFd Bits ULOOP_READ ULOOP_WRITE)

/-- The event loop waits for `flag` on a descriptor. -/
def Watched (u : UloopFd) (flag : Bits) : Prop := u.registered = true ∧ u.has flag

instance (u : UloopFd) (flag : Bits) : Decidable (Watched u flag) :=
  inferInstanceAs (Decidable (_ ∧ _))

/-! ## `ustream_fd_set_uloop` -/

theorem watched_uloopFdAdd {u : UloopFd} {flags flag : Bits}
    (hany : flags &&& (ULOOP_READ ||| ULOOP_WRITE) ≠ 0)
    (hflag : (flags.setWidth 8).setWidth 32 &&& flag ≠ 0) : Watched (uloopFdAdd u flags) flag := by
  rw [uloopFdAdd, if_neg hany]
  exact ⟨rfl, hflag⟩

theorem watched_read (u : UloopFd) (write : Bool) :
    Watched (uloopFdAdd u (setUloopFlags 0 false write)) ULOOP_READ := by
  cases write with
  | false => exact watched_uloopFdAdd (by decide) (by decide)
  | true => exact watched_uloopFdAdd (by decide) (by decide)

theorem watched_write (u : UloopFd) (readBlocked : BitVec 8) (eof : Bool) :
    Watched (uloopFdAdd u (setUloopFlags readBlocked eof true)) ULOOP_WRITE := by
  unfold setUloopFlags
  split
  · exact watched_uloopFdAdd (by decide) (by decide)
  · exact watched_uloopFdAdd (by decide) (by decide)

variable {s s' : Stream UstreamFd} {q : List UInt8}

/-- The invariant of a descriptor stream. -/
structure Interested (s : Stream UstreamFd) : Prop where
  r : ∃ q, Queue s.stringData s.r q
  w : s.writeError = false → ∃ q, Queue false s.w q
  read : s.eof = false → s.readBlocked = 0 → Watched s.impl.fd ULOOP_READ
  write : s.writeError = false → 0 < s.w.dataBytes → Watched s.impl.fd ULOOP_WRITE

theorem Queue.head_isSome {l : BufList} {string : Bool} (h : Queue string l q)
    (hpos : 0 < l.dataBytes) : l.head.isSome = true := by
  have hbytes := h.dataBytes
  have hne : q ≠ [] := by
    rintro rfl
    simp only [List.length_nil] at hbytes
    omega
  obtain ⟨buf, b, hfirst⟩ := h.toContent.first hne
  rw [hfirst.head]
  rfl

/-- The flags are set from the fields. -/
theorem interested_setUloop (hr : ∃ q, Queue s.stringData s.r q)
    (hw : s.writeError = false → ∃ q, Queue false s.w q) :
    Interested { s with impl := ustreamFdSetUloop s false } where
  r := hr
  w := hw
  read heof hblocked := by
    change s.eof = false at heof
    change s.readBlocked = 0 at hblocked
    simp only [ustreamFdSetUloop, heof, hblocked]
    exact watched_read _ _
  write herr hpos := by
    obtain ⟨q, hq⟩ := hw herr
    change 0 < s.w.dataBytes at hpos
    change s.writeError = false at herr
    have hne : s.w.dataBytes ≠ 0 := by omega
    have hwrite : (false || (s.w.head.isSome && s.w.dataBytes ≠ 0 && !s.writeError)) = true := by
      simp [hq.head_isSome hpos, herr, hne]
    simp only [ustreamFdSetUloop, hwrite]
    exact watched_write _ _ _

/-! ## The callback `write` -/

/-- All is accounted for, unless there is an error. -/
theorem fdWriteLoop_spec (calls : List SysWrite) (buflen ret : Nat) :
    fdWriteLoop calls buflen ret = (-1, 0) ∨
      ∃ n left : Nat, fdWriteLoop calls buflen ret = ((n : Int), left) ∧
        n + left = ret + buflen := by
  induction calls generalizing buflen ret with
  | nil =>
      right
      cases buflen with
      | zero => exact ⟨ret, 0, rfl, rfl⟩
      | succ n => exact ⟨ret, n + 1, rfl, rfl⟩
  | cons call calls ih =>
      cases buflen with
      | zero => exact .inr ⟨ret, 0, by cases call <;> rfl, rfl⟩
      | succ m =>
          cases call with
          | again => exact .inr ⟨ret, m + 1, rfl, rfl⟩
          | eintr => exact ih (m + 1) ret
          | error => exact .inl rfl
          | written n =>
              rcases ih (m + 1 - min n (m + 1)) (ret + min n (m + 1)) with herr | ⟨k, left, hk, hsum⟩
              · exact .inl herr
              · exact .inr ⟨k, left, hk, by omega⟩

/-- The callback `write` of a descriptor stream. -/
theorem fdImpl_heeds (s : Stream UstreamFd) :
    (fdImpl.writeCb s).Heeds (fun sf => Watched sf.fd ULOOP_WRITE)
      fun sf => s.eof = false → s.readBlocked = 0 → Watched sf.fd ULOOP_READ where
  le sf buf more := by
    change (fdWriteLoop (sf.writes.headD []) buf.length 0).1 ≤ buf.length
    rcases fdWriteLoop_spec (sf.writes.headD []) buf.length 0 with herr | ⟨n, left, hn, hsum⟩
    · rw [herr]
      omega
    · rw [hn]
      simp only
      omega
  short sf buf more := by
    intro hpos hlt
    change 0 ≤ (fdWriteLoop (sf.writes.headD []) buf.length 0).1 at hpos
    change (fdWriteLoop (sf.writes.headD []) buf.length 0).1 < buf.length at hlt
    have hleft : (fdWriteLoop (sf.writes.headD []) buf.length 0).2 ≠ 0 := by
      rcases fdWriteLoop_spec (sf.writes.headD []) buf.length 0 with herr | ⟨n, left, hn, hsum⟩
      · rw [herr] at hpos
        exact absurd hpos (by decide)
      · rw [hn] at hlt ⊢
        simp only at hlt ⊢
        omega
    simp only [Impl.writeCb, fdImpl, ustreamFdWrite, if_neg hleft]
    exact watched_write _ _ _
  keep_busy sf buf more := by
    intro hbusy
    simp only [Impl.writeCb, fdImpl, ustreamFdWrite]
    split
    · exact hbusy
    · exact watched_write _ _ _
  keep_good sf buf more := by
    intro hgood heof hblocked
    simp only [Impl.writeCb, fdImpl, ustreamFdWrite]
    split
    · exact hgood heof hblocked
    · rw [heof, hblocked]
      exact watched_read _ _

/-! ## One step -/

theorem Interested.of_wrote (h : Interested s)
    (hw : Wrote (fun sf => Watched sf.fd ULOOP_WRITE)
      (fun sf => s.eof = false → s.readBlocked = 0 → Watched sf.fd ULOOP_READ) s s') :
    Interested s' where
  r := by
    rw [hw.r, hw.stringData]
    exact h.r
  w _ := hw.queue
  read heof hblocked := hw.good h.read (hw.eof ▸ heof) (hw.readBlocked ▸ hblocked)
  write herr := hw.busy (h.write (hw.writeError herr)) herr

/-- The input has changed, and `set_read_blocked` was called if it had to be. -/
theorem Interested.of_took (h : Interested s) (ht : Took s s') :
    Interested (fdImpl.blocked s s') := by
  have hr : ∃ q, Queue s'.stringData s'.r q := ht.stringData ▸ ht.queue
  have hw : s'.writeError = false → ∃ q, Queue false s'.w q := by
    rw [ht.writeError, ht.w]
    exact h.w
  unfold Impl.blocked
  split
  · exact interested_setUloop hr hw
  · next hsame =>
      refine ⟨hr, hw, ?_, ?_⟩
      · intro heof hblocked
        rw [ht.impl]
        refine h.read (ht.eof ▸ heof) ?_
        by_contra hne
        exact hne (by simpa [hblocked] using hsame)
      · rw [ht.writeError, ht.w, ht.impl]
        exact h.write

/-- The timer is set, or not. -/
theorem Interested.stateChange (h : Interested s) (stateChange : Bool) :
    Interested { s with stateChange } := ⟨h.r, h.w, h.read, h.write⟩

/-- After a write error only the input matters. -/
theorem Interested.of_error {w : BufList} (h : Interested s) (herr : s.writeError = true) :
    Interested { s with w } where
  r := h.r
  w hno := by
    change s.writeError = false at hno
    rw [herr] at hno
    cases hno
  read := h.read
  write hno := by
    change s.writeError = false at hno
    rw [herr] at hno
    cases hno

namespace Live

variable {s s' : Live UstreamFd FdFrame} {e : Option Notify} {events : Bits}

theorem interested_writePending (h : Interested s.stream)
    (heq : s.writePending fdImpl = some (s', e)) : Interested s'.stream := by
  unfold writePending at heq
  split at heq
  · cases heq
    exact h
  · next herr =>
      obtain ⟨⟨stream, wr⟩, hloop, heq⟩ := Option.bind_eq_some_iff.mp heq
      cases heq
      obtain ⟨q, hq⟩ := h.w (by simpa using herr)
      exact h.of_wrote (Wrote.of_pendingLoop (fdImpl_heeds s.stream) hq (.inr rfl) hloop)

theorem interested_call {c : FdCall} (h : Interested s.stream)
    (heq : s.call fdImpl c.toCall = some (s', e)) : Interested s'.stream := by
  obtain ⟨qr, hr⟩ := h.r
  have hcb := fdImpl_heeds s.stream
  cases c with
  | write data more =>
      obtain ⟨⟨stream, r⟩, hwrite, heq⟩ := Option.bind_eq_some_iff.mp heq
      cases heq
      by_cases herr : s.stream.writeError = true
      · rw [ustreamWrite, if_pos herr] at hwrite
        cases hwrite
        exact h
      · obtain ⟨q, hq⟩ := h.w (by simpa using herr)
        exact h.of_wrote (Wrote.of_write hcb hq hwrite)
  | printf text =>
      obtain ⟨⟨stream, r⟩, hprintf, heq⟩ := Option.bind_eq_some_iff.mp heq
      cases heq
      by_cases herr : s.stream.writeError = true
      · rw [ustreamPrintf, if_pos herr] at hprintf
        cases hprintf
        exact h
      · obtain ⟨q, hq⟩ := h.w (by simpa using herr)
        exact h.of_wrote (Wrote.of_printf hcb hq hprintf)
  | writePending => exact interested_writePending h heq
  | read buflen =>
      obtain ⟨⟨stream, buf⟩, hread, heq⟩ := Option.bind_eq_some_iff.mp heq
      cases heq
      exact h.of_took (Took.of_read hr hread)
  | consume len =>
      obtain ⟨stream, hconsume, heq⟩ := Option.bind_eq_some_iff.mp heq
      cases heq
      exact h.of_took (Took.of_consume hr hconsume)
  | setReadBlocked set =>
      obtain ⟨stream, hset, heq⟩ := Option.bind_eq_some_iff.mp heq
      cases heq
      exact h.of_took (Took.of_setReadBlocked hr hset)
  | stateChange =>
      cases heq
      exact h.stateChange true
  | settingsR v =>
      cases heq
      exact ⟨⟨qr, hr.set v⟩, h.w, h.read, h.write⟩
  | settingsW v =>
      cases heq
      refine ⟨h.r, fun herr => ?_, h.read, h.write⟩
      obtain ⟨q, hq⟩ := h.w herr
      exact ⟨q, hq.set v⟩

theorem interested_stateChangeCb (h : Interested s.stream)
    (heq : s.stateChangeCb = some (s', e)) : Interested s'.stream := by
  unfold stateChangeCb at heq
  split at heq
  · split at heq
    · next herr =>
        obtain ⟨w, -, heq⟩ := Option.bind_eq_some_iff.mp heq
        cases heq
        exact (h.of_error (w := w) herr).stateChange false
    · cases heq
      exact h.stateChange false
  · cases heq

theorem interested_notified (wr : Int) (h : Interested s.stream) :
    Interested (s.notified wr).stream := by
  simp only [notified]
  split
  · exact h.stateChange true
  · exact h

/-! ### `__ustream_fd_poll` -/

theorem interested_pollError (h : Interested s.stream) : Interested s.pollError.stream := by
  unfold pollError
  split
  · refine interested_setUloop h.r fun herr => ?_
    cases herr
  · exact h

theorem interested_pollWritten (h : Interested s.stream) : Interested s.pollWritten.stream := by
  unfold pollWritten
  split
  · exact interested_pollError (s := { s with stream := s.stream.setUloop })
      (interested_setUloop h.r h.w)
  · exact interested_pollError h

theorem interested_pollWrite (h : Interested s.stream)
    (heq : s.pollWrite events = some (s', e)) : Interested s'.stream := by
  unfold pollWrite at heq
  split at heq
  · exact interested_writePending (s := s.push _) h heq
  · cases heq
    exact interested_pollError h

theorem interested_readEof {s : Stream UstreamFd} (h : Interested s) : Interested (readEof s) := by
  unfold readEof
  simp only
  split
  · exact interested_setUloop (s := { s with eof := true }) h.r h.w
  · exact interested_setUloop (s := { ustreamStateChange s with eof := true }) h.r h.w

theorem interested_fillRead {data : List UInt8} (h : Interested s.stream)
    (heq : s.fillRead data = some (s', e)) : Interested s'.stream := by
  obtain ⟨r, hstore, heq⟩ := Option.bind_eq_some_iff.mp heq
  obtain ⟨stream, hfill, heq⟩ := Option.bind_eq_some_iff.mp heq
  cases heq
  obtain ⟨q, hq⟩ := h.r
  have hr := (Took.of_fillRead hq hstore hfill).queue
  obtain ⟨dataBytes, -, hfill⟩ := Option.bind_eq_some_iff.mp hfill
  obtain ⟨r', -, hfill⟩ := Option.bind_eq_some_iff.mp hfill
  cases hfill
  exact ⟨hr, h.w, h.read, h.write⟩

theorem interested_readPending (h : Interested s.stream)
    (heq : s.readPending events = some (s', e)) : Interested s'.stream := by
  unfold readPending at heq
  split at heq
  · exact interested_pollWrite h heq
  obtain ⟨⟨stream, buf, buflen⟩, hreserve, heq⟩ := Option.bind_eq_some_iff.mp heq
  obtain ⟨q, hq⟩ := h.r
  have hreserved : Interested (fdImpl.blocked s.stream stream) :=
    h.of_took (Took.of_reserve hq hreserve)
  cases buf with
  | none =>
      exact interested_pollWrite (s := { s with stream := fdImpl.blocked s.stream stream })
        hreserved heq
  | some buf =>
      obtain ⟨t, ht⟩ : ∃ t, t = fdImpl.blocked s.stream stream := ⟨_, rfl⟩
      simp only [← ht] at heq
      rw [← ht] at hreserved
      have hcalled : Interested { t with impl := { t.impl with reads := t.impl.reads.tail } } :=
        ⟨hreserved.r, hreserved.w, hreserved.read, hreserved.write⟩
      split at heq
      · cases heq
        exact hcalled
      · exact interested_pollWrite (s := { s with stream := _ }) hcalled heq
      · exact interested_pollWrite (s := { s with stream := _ }) hcalled heq
      · exact interested_pollWrite (s := { s with stream := _ }) (interested_readEof hcalled) heq
      · split at heq
        · exact interested_pollWrite (s := { s with stream := _ }) (interested_readEof hcalled) heq
        · exact interested_fillRead
            (s := ({ s with stream := _ } : Live UstreamFd FdFrame).push _) hcalled heq

theorem interested_fdPoll (h : Interested s.stream)
    (heq : s.fdPoll events = some (s', e)) : Interested s'.stream := by
  unfold fdPoll at heq
  split at heq
  · exact interested_readPending h heq
  · exact interested_pollWrite h heq

theorem interested_fdTurn {a : FdAction} (h : Interested s.stream)
    (heq : s.fdTurn a = some (s', e)) : Interested s'.stream := by
  cases a with
  | call c => exact interested_call h heq
  | poll => exact interested_fdPoll h heq
  | event events => exact interested_fdPoll h heq
  | failed =>
      cases heq
      exact ⟨h.r, h.w, h.read, h.write⟩
  | stateChange => exact interested_stateChangeCb h heq
  | ret => cases heq
  | resume => cases heq

/-- **One step keeps the stream interested.** -/
theorem interested_fdStep {a : FdAction} (h : Interested s.stream)
    (heq : s.fdStep a = some (s', e)) : Interested s'.stream := by
  unfold fdStep at heq
  split at heq
  · cases heq
    exact h
  · exact interested_fdTurn h heq
  · exact interested_fdTurn h heq
  · cases heq
    exact interested_notified (s := { s with stack := _ }) _ h
  · next events rest hstack =>
      exact interested_readPending (s := { s with stack := rest }) h heq
  · cases heq
    exact interested_pollWritten (s := { s with stack := _ }) h
  · cases heq

end Live

/-! ## Runs -/

theorem interested_init {s : Stream UstreamFd} (hzero : Zeroed s) :
    Interested (Live.fdInit s).stream := by
  have hsound := sound_init hzero
  exact interested_setUloop (s := { ustreamInitDefaults s with setReadBlocked := true }) hsound.r
    fun _ => hsound.w

/-- **Interest is never lost**, between two operations and inside them. -/
theorem ustreamFd_interested {s₀ : Stream UstreamFd} {acts : List FdAction}
    {s : Live UstreamFd FdFrame} {trace : List (Option Notify)} (hzero : Zeroed s₀)
    (hrun : run Live.fdStep (Live.fdInit s₀) acts = some (s, trace))
    (herr : s.stream.writeError = false) :
    (0 < s.stream.w.dataBytes → Watched s.stream.impl.fd ULOOP_WRITE) ∧
      (s.stream.eof = false → s.stream.readBlocked = 0 → Watched s.stream.impl.fd ULOOP_READ) := by
  have hkeep : ∀ (s : Live UstreamFd FdFrame) a s' e, Interested s.stream → True →
      s.fdStep a = some (s', e) → Interested s'.stream :=
    fun s a s' e h _ hstep => Live.interested_fdStep h hstep
  have hinterested : Interested s.stream :=
    @run_invariant _ _ _ _ _ (fun s => Interested s.stream) hkeep _ _ _ _ (interested_init hzero)
      (Machine.along_true _ acts) hrun
  exact ⟨hinterested.write herr, hinterested.read⟩

/-- A descriptor stream of zeroes but for `buffer_len`. -/
def zeroesFd (bufferLen : Nat) (writes : List (List SysWrite)) (reads : List SysRead) :
    Stream UstreamFd :=
  { zeroes bufferLen with
    impl := { fd := ⟨true, false, false, false, 0⟩, writes, reads } }

/-- Five bytes come in while two are read at a time, the application answers from
`notify_read`, and the system takes one byte of what it writes. -/
theorem ustreamFd_interested_short : ∃ (s : Live UstreamFd FdFrame) (trace : List (Option Notify)),
    run Live.fdStep (Live.fdInit (zeroesFd 2 [[.written 1]] [.data [1, 2, 3, 4, 5], .eintr]))
      [.event 1, .call (.write ⟨[1, 2, 3], by decide⟩ false), .ret, .resume, .call (.consume 2)] =
        some (s, trace) ∧ 0 < s.stream.w.dataBytes ∧ Watched s.stream.impl.fd ULOOP_WRITE := by
  have hsome : ∃ (s : Live UstreamFd FdFrame) (trace : List (Option Notify)),
      run Live.fdStep (Live.fdInit (zeroesFd 2 [[.written 1]] [.data [1, 2, 3, 4, 5], .eintr]))
        [.event 1, .call (.write ⟨[1, 2, 3], by decide⟩ false), .ret, .resume,
          .call (.consume 2)] = some (s, trace) ∧ s.stream.writeError = false ∧
            0 < s.stream.w.dataBytes := by
    refine ⟨_, _, rfl, ?_⟩
    decide
  obtain ⟨s, trace, hrun, herr, hpos⟩ := hsome
  have hzero : Zeroed (zeroesFd 2 [[.written 1]] [.data [1, 2, 3, 4, 5], .eintr]) :=
    ⟨⟨rfl, rfl, rfl⟩, ⟨rfl, rfl, rfl⟩, rfl⟩
  exact ⟨s, trace, hrun, hpos, (ustreamFd_interested hzero hrun herr).1 hpos⟩

end Libubox.Ustream
