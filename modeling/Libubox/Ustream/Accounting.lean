import Libubox.Ustream.Events

/-!
# The accounting of a stream

Every call that returns leaves two lists of the shape of `Queue`: the counters
`buffers` and `data_bytes` and the pointers agree with the buffers (`Accounted`).
The one exception is `ustream_state_change_cb`.  It frees the buffers of `w`
after a write error and leaves the counters as they are (`not_accounting`).

The lemmas say what a call has done if it returns; whether it does is the subject
of `Output` and `Input`.
-/

namespace Libubox.Ustream

open Bytes Chain Machine

theorem addInt_eq_some {a b c : Int} (h : addInt a b = some c) : c = a + b ∧ a + b ≤ INT_MAX := by
  unfold addInt at h
  split at h
  · next hle =>
      cases h
      exact ⟨rfl, hle.2⟩
  · cases h

variable {σ φ : Type} {l l' : BufList} {q : List UInt8} {full xs : List (Nat × Chunk)}
  {x : Nat × Chunk}

/-! ## Writing into a list -/

/-- Room was made. -/
theorem Queue.of_prepare {stringData isR ok : Bool} {len : Nat}
    (h : Queue (isR && stringData) l q)
    (heq : ustreamPrepareBuf stringData isR l len = some (l', ok)) :
    Queue (isR && stringData) l' q ∧ (ok = true → ∃ full x xs,
      Shape (isR && stringData) l' full (x :: xs) ∧ contents (full ++ x :: xs) = q ∧
        x.2.tail < x.2.size) := by
  obtain ⟨full, rest, hs, hq⟩ := h.shape
  have hmax : mustGrow l len = true → ustreamCanAlloc l = true → l.buffers + 1 ≤ INT_MAX := by
    intro hgrow hcan
    by_contra hlt
    have hnone := ustreamPrepareBuf_eq_none stringData isR hs hgrow hcan (Int.not_le.mp hlt)
    rw [hnone] at heq
    cases heq
  obtain ⟨l₁, full', rest', hprep, hmade⟩ :=
    ustreamPrepareBuf_spec stringData isR len hs h.bufferLen hmax
  rw [hprep] at heq
  cases heq
  have hq' : contents (full' ++ rest') = q := hmade.contents.trans hq
  refine ⟨⟨⟨⟨full', rest', hmade.shape, hq'⟩, ?_, hmade.buffers h.buffers⟩, ?_, h.small⟩, ?_⟩
  · rw [hmade.kept.bufferLen]
    exact h.bufferLen
  · exact hmade.kept.dataBytes.trans h.dataBytes
  · intro hok
    obtain ⟨x, xs, rfl, hlt⟩ := hmade.room hok
    exact ⟨full', x, xs, hmade.shape, hq', hlt⟩

/-- Bytes were stored in the buffer at `data_tail` and counted. -/
theorem Queue.of_push {bs : List UInt8} {n : Nat} {c₁ c₂ : Chunk} {dataBytes : Int}
    (h : Queue false l q) (hs : Shape false l full (x :: xs))
    (hq : contents (full ++ x :: xs) = q) (hn : n ≤ bs.length)
    (hsize : x.2.tail + n ≤ x.2.size) (hstore : x.2.store bs = some c₁)
    (hextend : c₁.extend n = some c₂) (hadd : addInt l.dataBytes n = some dataBytes) :
    Queue false ((l.put x.1 (some ⟨c₂, xs.head?.map Prod.fst⟩)).setDataBytes dataBytes)
      (q ++ bs.take n) := by
  obtain ⟨rfl, hmax⟩ := addInt_eq_some hadd
  have hbs : x.2.tail + bs.length ≤ x.2.bytes.length := by
    by_contra hlt
    rw [Chunk.store, dif_neg hlt] at hstore
    cases hstore
  obtain ⟨d₁, d₂, hstore', hextend', hs', hcontent, -⟩ := hs.push bs n hbs hn hsize
  obtain rfl : d₁ = c₁ := Option.some.inj (hstore'.symm.trans hstore)
  obtain rfl : d₂ = c₂ := Option.some.inj (hextend'.symm.trans hextend)
  exact h.push hs' (hcontent.trans (by rw [hq])) hn hmax

theorem Queue.of_writeBuffered {stringData : Bool} {fuel : Nat} {data : List UInt8} {wr wr' : Int}
    (h : Queue false l q) (heq : ustreamWriteBuffered stringData fuel l data wr = some (l', wr')) :
    ∃ q', Queue false l' q' := by
  induction fuel generalizing l q data wr with
  | zero => cases heq
  | succ fuel ih =>
      rw [ustreamWriteBuffered] at heq
      split at heq
      · cases heq
        exact ⟨q, h⟩
      · obtain ⟨⟨l₁, ok⟩, hprep, heq⟩ := Option.bind_eq_some_iff.mp heq
        obtain ⟨h₁, hroom⟩ := @Queue.of_prepare _ _ _ _ false _ _ h hprep
        cases ok with
        | false =>
            cases heq
            exact ⟨q, h₁⟩
        | true =>
            obtain ⟨full, x, xs, hs, hq, hlt⟩ := hroom rfl
            have hdataTail : l₁.dataTail = some x.1 := hs.dataTail
            have hcell : l₁.heap x.1 = some ⟨x.2, xs.head?.map Prod.fst⟩ := hs.cell rfl
            simp only [Bool.not_true, Bool.false_eq_true, if_false, Option.bind_eq_bind,
              hdataTail, hcell, Option.bind_some] at heq
            obtain ⟨c₁, hstore, heq⟩ := Option.bind_eq_some_iff.mp heq
            obtain ⟨c₂, hextend, heq⟩ := Option.bind_eq_some_iff.mp heq
            obtain ⟨wr₁, hwr, heq⟩ := Option.bind_eq_some_iff.mp heq
            obtain ⟨dataBytes, hadd, heq⟩ := Option.bind_eq_some_iff.mp heq
            have htake : min (x.2.size - x.2.tail) data.length
                ≤ (data.take (min (x.2.size - x.2.tail) data.length)).length := by
              rw [List.length_take]
              omega
            exact ih (h₁.of_push hs hq htake (by omega) hstore hextend hadd) heq

theorem Queue.of_vprintfQueued {s s' : Stream σ} {text : List UInt8} {r : Int}
    (h : Queue false s.w q) (heq : vprintfQueued s text = some (s', r)) :
    ∃ w q', Queue false w q' ∧ s' = { s with w } := by
  obtain ⟨⟨w, ok⟩, hprep, heq⟩ := Option.bind_eq_some_iff.mp heq
  obtain ⟨h₁, hroom⟩ := @Queue.of_prepare _ _ _ _ false _ _ h hprep
  cases ok with
  | false =>
      cases heq
      exact ⟨w, q, h₁, rfl⟩
  | true =>
      obtain ⟨full, x, xs, hs, hq, hlt⟩ := hroom rfl
      have hdataTail : w.dataTail = some x.1 := hs.dataTail
      have hcell : w.heap x.1 = some ⟨x.2, xs.head?.map Prod.fst⟩ := hs.cell rfl
      simp only [Bool.not_true, Bool.false_eq_true, if_false, Option.bind_eq_bind,
        hdataTail, hcell, Option.bind_some] at heq
      obtain ⟨c₁, hstore, heq⟩ := Option.bind_eq_some_iff.mp heq
      obtain ⟨c₂, hextend, heq⟩ := Option.bind_eq_some_iff.mp heq
      obtain ⟨dataBytes, hadd, heq⟩ := Option.bind_eq_some_iff.mp heq
      have h₂ := h₁.of_push hs hq (by
        rw [List.length_append, List.length_take]
        split <;> simp <;> omega) (by split <;> omega) hstore hextend hadd
      split at heq
      · cases heq
        exact ⟨_, _, h₂, rfl⟩
      · obtain ⟨-, -, heq⟩ := Option.bind_eq_some_iff.mp heq
        obtain ⟨⟨w', wr'⟩, hbuffered, heq⟩ := Option.bind_eq_some_iff.mp heq
        cases heq
        obtain ⟨q', h'⟩ := h₂.of_writeBuffered hbuffered
        exact ⟨w', q', h', rfl⟩

/-! ## Writing -/

/-- A callback that accepts no more than it is given; when it accepts less it
brings about `busy`, and it keeps `busy` and `good`. -/
structure WriteCb.Heeds (cb : WriteCb σ) (busy good : σ → Prop) : Prop where
  le : ∀ st buf more, (cb st buf more).2 ≤ buf.length
  short : ∀ st buf more, 0 ≤ (cb st buf more).2 → (cb st buf more).2 < buf.length →
    busy (cb st buf more).1
  keep_busy : ∀ st buf more, busy st → busy (cb st buf more).1
  keep_good : ∀ st buf more, good st → good (cb st buf more).1

/-- What a call that writes has done. -/
structure Wrote (busy good : σ → Prop) (s s' : Stream σ) : Prop where
  r : s'.r = s.r
  stringData : s'.stringData = s.stringData
  eof : s'.eof = s.eof
  readBlocked : s'.readBlocked = s.readBlocked
  writeError : s'.writeError = false → s.writeError = false
  queue : ∃ q, Queue false s'.w q
  busy : (0 < s.w.dataBytes → busy s.impl) → s'.writeError = false → 0 < s'.w.dataBytes →
    busy s'.impl
  good : good s.impl → good s'.impl

variable {busy good : σ → Prop} {s s' : Stream σ} {cb : WriteCb σ}

theorem Wrote.refl (h : Queue false s.w q) : Wrote busy good s s :=
  ⟨rfl, rfl, rfl, rfl, id, ⟨q, h⟩, fun hbusy _ => hbusy, id⟩

theorem Wrote.trans {s₁ s₂ s₃ : Stream σ} (h₁ : Wrote busy good s₁ s₂)
    (h₂ : Wrote busy good s₂ s₃) : Wrote busy good s₁ s₃ where
  r := h₂.r.trans h₁.r
  stringData := h₂.stringData.trans h₁.stringData
  eof := h₂.eof.trans h₁.eof
  readBlocked := h₂.readBlocked.trans h₁.readBlocked
  writeError herr := h₁.writeError (h₂.writeError herr)
  queue := h₂.queue
  busy hbusy herr := h₂.busy (h₁.busy hbusy (h₂.writeError herr)) herr
  good hgood := h₂.good (h₁.good hgood)

/-- The timer is set, or not. -/
theorem Wrote.stateChange (h : Wrote busy good s s') (stateChange : Bool) :
    Wrote busy good s { s' with stateChange } :=
  ⟨h.r, h.stringData, h.eof, h.readBlocked, h.writeError, h.queue, h.busy, h.good⟩

/-- The callback has failed. -/
theorem Wrote.error {buf : List UInt8} {more : Bool} (hcb : cb.Heeds busy good)
    (h : Queue false s.w q) : Wrote busy good s (ustreamWriteError (s.write cb buf more).1) where
  r := rfl
  stringData := rfl
  eof := rfl
  readBlocked := rfl
  writeError herr := nomatch herr
  queue := ⟨q, h⟩
  busy _ herr := nomatch herr
  good := hcb.keep_good s.impl buf more

/-- The callback was called while something is queued. -/
theorem Wrote.of_queued {buf : List UInt8} {more : Bool} {w : BufList} {q' : List UInt8}
    (hcb : cb.Heeds busy good) (h : Queue false s.w q) (hne : s.w.dataBytes ≠ 0)
    (hw : Queue false w q') : Wrote busy good s { (s.write cb buf more).1 with w } where
  r := rfl
  stringData := rfl
  eof := rfl
  readBlocked := rfl
  writeError := id
  queue := ⟨q', hw⟩
  busy hbusy _ _ := by
    have hbytes := h.dataBytes
    exact hcb.keep_busy s.impl buf more (hbusy (by omega))
  good := hcb.keep_good s.impl buf more

theorem Wrote.of_pendingLoop {fuel : Nat} {buf : Option Nat} {wr wr' : Int}
    (hcb : cb.Heeds busy good) (h : Queue false s.w q) (hbuf : buf = none ∨ buf = s.w.head)
    (heq : writePendingLoop cb fuel s buf wr = some (s', wr')) : Wrote busy good s s' := by
  induction fuel generalizing s q buf wr with
  | zero => cases heq
  | succ fuel ih =>
      cases buf with
      | none =>
          cases heq
          exact Wrote.refl h
      | some buf =>
          by_cases hzero : s.w.dataBytes = 0
          · simp only [writePendingLoop, hzero, if_true] at heq
            cases heq
            exact Wrote.refl h
          have hbytes := h.dataBytes
          have hne : q ≠ [] := by
            rintro rfl
            exact hzero hbytes
          have hhead : s.w.head = some buf := by
            rcases hbuf with hbuf | hbuf
            · cases hbuf
            · exact hbuf.symm
          simp only [writePendingLoop, if_neg hzero, Option.bind_eq_bind] at heq
          obtain ⟨b, hheap, heq⟩ := Option.bind_eq_some_iff.mp heq
          have hfirst := h.toContent.first_of hne hhead hheap
          have hlen : b.val.content.length = b.val.tail - b.val.data := b.val.content_length
          obtain ⟨len, hcall⟩ : ∃ len, len = (s.write cb b.val.content b.next.isSome).2 := ⟨_, rfl⟩
          have hle : len ≤ b.val.content.length := by
            rw [hcall]
            exact hcb.le s.impl b.val.content b.next.isSome
          have hcalled : ∀ {w q'}, Queue false w q' →
              Wrote busy good s { (s.write cb b.val.content b.next.isSome).1 with w } :=
            fun hw => Wrote.of_queued hcb h hzero hw
          rw [← hcall] at heq
          split at heq
          · cases heq
            exact Wrote.error hcb h
          split at heq
          · cases heq
            exact hcalled h
          next hneg hnone =>
          obtain ⟨n, rfl⟩ := Int.eq_ofNat_of_zero_le (Int.not_lt.mp hneg)
          obtain ⟨wr₁, -, heq⟩ := Option.bind_eq_some_iff.mp heq
          obtain ⟨dataBytes, hadd, heq⟩ := Option.bind_eq_some_iff.mp heq
          obtain ⟨hsub, -⟩ := addInt_eq_some hadd
          have hq := hfirst.start.length_le
          have hdrop : (q.drop n).length = q.length - n := List.length_drop
          have hcount : dataBytes = (q.drop n).length := by
            change dataBytes = s.w.dataBytes + -(n : Int) at hsub
            omega
          have hsmall : ((q.drop n).length : Int) ≤ INT_MAX := by
            have hold := h.small
            omega
          have hfirst' : First false (s.w.setDataBytes dataBytes) q buf b :=
            (h.toContent.setDataBytes _).first_of hne hhead hheap
          split at heq
          · next hshort =>
            obtain ⟨c, hadvance, hrest⟩ := hfirst'.advance n (by omega)
            rw [Int.toNat_natCast, hadvance] at heq
            cases heq
            exact hcalled ⟨hrest, hcount, hsmall⟩
          · next hshort =>
            have hall : n = b.val.content.length := by omega
            obtain ⟨w, hfree, hkept, hrest, hnext⟩ := hfirst'.free
            rw [← hall] at hrest
            obtain ⟨w', hfree', heq⟩ := Option.bind_eq_some_iff.mp heq
            obtain rfl : w = w' := Option.some.inj (hfree.symm.trans hfree')
            have hw : Queue false w (q.drop n) :=
              ⟨hrest, hkept.dataBytes.trans hcount, hsmall⟩
            exact (hcalled hw).trans (ih hw (hnext.imp_left And.left) heq)

/-- The callback accepts all it is called with. -/
theorem Wrote.accepted {data : List UInt8} {more : Bool} (hcb : cb.Heeds busy good)
    (h : Queue false s.w q) (hzero : s.w.dataBytes = 0) :
    Wrote busy good s (s.write cb data more).1 where
  r := rfl
  stringData := rfl
  eof := rfl
  readBlocked := rfl
  writeError := id
  queue := ⟨q, h⟩
  busy _ _ hpos := by
    change 0 < s.w.dataBytes at hpos
    omega
  good := hcb.keep_good s.impl data more

/-- The callback accepts less, and the rest is queued. -/
theorem Wrote.rest {data : List UInt8} {more : Bool} {wr r : Int} (hcb : cb.Heeds busy good)
    (h : Queue false s.w q) (hwr : wr = (s.write cb data more).2) (hpos : 0 ≤ wr)
    (hne : wr ≠ data.length)
    (heq : writeBuffered (s.write cb data more).1 (data.drop wr.toNat) wr = some (s', r)) :
    Wrote busy good s s' := by
  obtain ⟨⟨w, wr'⟩, hbuffered, heq⟩ := Option.bind_eq_some_iff.mp heq
  cases heq
  have hle := hcb.le s.impl data more
  have hwr' : wr = (cb s.impl data more).2 := hwr
  exact
    { r := rfl, stringData := rfl, eof := rfl, readBlocked := rfl, writeError := id
      queue := h.of_writeBuffered hbuffered
      busy := fun _ _ _ => hcb.short s.impl data more (by omega) (by omega)
      good := hcb.keep_good s.impl data more }

/-- What is written is queued behind what is queued already. -/
theorem Wrote.of_more {w : BufList} {q' : List UInt8} (h : Queue false s.w q)
    (hne : s.w.dataBytes ≠ 0) (hw : Queue false w q') : Wrote busy good s { s with w } :=
  ⟨rfl, rfl, rfl, rfl, id, ⟨q', hw⟩, fun hbusy _ _ => hbusy (by
    have hbytes := h.dataBytes
    omega), id⟩

theorem Wrote.of_write {data : List UInt8} {more : Bool} {r : Int} (hcb : cb.Heeds busy good)
    (h : Queue false s.w q) (heq : ustreamWrite cb s data more = some (s', r)) :
    Wrote busy good s s' := by
  unfold ustreamWrite at heq
  split at heq
  · cases heq
    exact Wrote.refl h
  split at heq
  · next hzero =>
      simp only at heq
      split at heq
      · cases heq
        exact Wrote.accepted hcb h hzero
      split at heq
      · cases heq
        exact Wrote.error hcb h
      next hne hneg => exact Wrote.rest hcb h rfl (Int.not_lt.mp hneg) hne heq
  · next hne =>
      obtain ⟨⟨w, wr'⟩, hbuffered, heq⟩ := Option.bind_eq_some_iff.mp heq
      cases heq
      obtain ⟨q', hw⟩ := h.of_writeBuffered hbuffered
      exact Wrote.of_more h hne hw

theorem Wrote.of_printf {text : List UInt8} {r : Int} (hcb : cb.Heeds busy good)
    (h : Queue false s.w q) (heq : ustreamPrintf cb s text = some (s', r)) :
    Wrote busy good s s' := by
  unfold ustreamPrintf ustreamVprintf at heq
  split at heq
  · cases heq
    exact Wrote.refl h
  split at heq
  · next hzero =>
      split at heq
      · simp only at heq
        split at heq
        · cases heq
          exact Wrote.error hcb h
        split at heq
        · cases heq
          exact Wrote.accepted hcb h hzero
        next hneg hne => exact Wrote.rest hcb h rfl (Int.not_lt.mp hneg) hne heq
      · obtain ⟨-, -, heq⟩ := Option.bind_eq_some_iff.mp heq
        exact Wrote.of_write hcb h heq
  · next hne =>
      obtain ⟨w, q', hw, rfl⟩ := h.of_vprintfQueued heq
      exact Wrote.of_more h hne hw

/-! ## Reading -/

/-- What a call that fills in or takes out has done. -/
structure Took (s s' : Stream σ) : Prop where
  w : s'.w = s.w
  stringData : s'.stringData = s.stringData
  eof : s'.eof = s.eof
  writeError : s'.writeError = s.writeError
  impl : s'.impl = s.impl
  queue : ∃ q, Queue s.stringData s'.r q

theorem Took.refl (h : Queue s.stringData s.r q) : Took s s := ⟨rfl, rfl, rfl, rfl, rfl, q, h⟩

theorem Took.trans {s₁ s₂ s₃ : Stream σ} (h₁ : Took s₁ s₂) (h₂ : Took s₂ s₃) : Took s₁ s₃ where
  w := h₂.w.trans h₁.w
  stringData := h₂.stringData.trans h₁.stringData
  eof := h₂.eof.trans h₁.eof
  writeError := h₂.writeError.trans h₁.writeError
  impl := h₂.impl.trans h₁.impl
  queue := h₁.stringData ▸ h₂.queue

theorem eq_of_setReadBlockedTo {val : BitVec 8} (heq : setReadBlockedTo s val = some s') :
    s' = { s with readBlocked := val } := by
  unfold setReadBlockedTo at heq
  simp only at heq
  split at heq
  · cases heq
  · exact (Option.some.inj heq).symm

/-- The list has changed, and perhaps `read_blocked`. -/
theorem Took.of_list {r : BufList} {val : BitVec 8} (hr : Queue s.stringData r q)
    (heq : setReadBlockedTo { s with r } val = some s') : Took s s' := by
  obtain rfl := eq_of_setReadBlockedTo heq
  exact ⟨rfl, rfl, rfl, rfl, rfl, q, hr⟩

theorem Took.of_consume {n : Nat} (h : Queue s.stringData s.r q)
    (heq : ustreamConsume s n = some s') : Took s s' := by
  unfold ustreamConsume at heq
  split at heq
  · cases heq
    exact Took.refl h
  next hn =>
  obtain ⟨dataBytes, hadd, heq⟩ := Option.bind_eq_some_iff.mp heq
  obtain ⟨rfl, -⟩ := addInt_eq_some hadd
  split at heq
  · cases heq
  next hneg =>
  have hbytes := h.dataBytes
  have hsmall := h.small
  have hle : n ≤ q.length := by omega
  have hdrop : (q.drop n).length = q.length - n := List.length_drop
  obtain ⟨r, hloop, hcontent, hkept⟩ := consumeLoop_spec (Nat.lt_succ_self n)
    (h.toContent.setDataBytes (s.r.dataBytes + -n)) (Nat.pos_of_ne_zero hn) hle
  obtain ⟨r', hloop', heq⟩ := Option.bind_eq_some_iff.mp heq
  obtain rfl : r = r' := Option.some.inj (hloop.symm.trans hloop')
  have hcount : r.dataBytes = (q.drop n).length := by
    rw [hkept.dataBytes]
    simp only [BufList.setDataBytes]
    omega
  exact Took.of_list ⟨hcontent, hcount, by omega⟩ heq

theorem Took.of_readLoop {fuel buflen : Nat} {buf buf' : List UInt8}
    (h : Queue s.stringData s.r q) (heq : readLoop fuel s buflen buf = some (s', buf')) :
    Took s s' := by
  induction fuel generalizing s q buf with
  | zero => cases heq
  | succ fuel ih =>
      obtain ⟨⟨data, n⟩, -, heq⟩ := Option.bind_eq_some_iff.mp heq
      cases data with
      | none =>
          cases heq
          exact Took.refl h
      | some data =>
          obtain ⟨s₁, hconsume, heq⟩ := Option.bind_eq_some_iff.mp heq
          have h₁ := Took.of_consume h hconsume
          simp only at heq
          split at heq
          · obtain ⟨q₁, hq₁⟩ := h₁.queue
            exact h₁.trans (ih (h₁.stringData ▸ hq₁) heq)
          · cases heq
            exact h₁

theorem Took.of_read {buflen : Nat} {buf : List UInt8} (h : Queue s.stringData s.r q)
    (heq : ustreamRead s buflen = some (s', buf)) : Took s s' :=
  Took.of_readLoop h heq

theorem Took.of_reserve {len maxlen : Nat} {ptr : Option Nat} (h : Queue s.stringData s.r q)
    (heq : ustreamReserve s len = some (s', ptr, maxlen)) : Took s s' := by
  obtain ⟨⟨r, ok⟩, hprep, heq⟩ := Option.bind_eq_some_iff.mp heq
  obtain ⟨hr, -⟩ := @Queue.of_prepare _ _ _ _ true _ _ h hprep
  cases ok with
  | true =>
      obtain ⟨buf, -, heq⟩ := Option.bind_eq_some_iff.mp heq
      obtain ⟨b, -, heq⟩ := Option.bind_eq_some_iff.mp heq
      cases heq
      exact ⟨rfl, rfl, rfl, rfl, rfl, q, hr⟩
  | false =>
      obtain ⟨s₁, hblock, heq⟩ := Option.bind_eq_some_iff.mp heq
      cases heq
      exact Took.of_list hr hblock

theorem Took.of_setReadBlocked {set : Bool} (h : Queue s.stringData s.r q)
    (heq : ustreamSetReadBlocked s set = some s') : Took s s' :=
  Took.of_list h heq

/-- The same place in a buffer. -/
structure Chunk.Alike (c c' : Chunk) : Prop where
  data : c'.data = c.data
  tail : c'.tail = c.tail
  size : c'.size = c.size
  length : c'.bytes.length = c.bytes.length

theorem Chunk.alike_of_store {c c' : Chunk} {bs : List UInt8} (heq : c.store bs = some c') :
    c.Alike c' := by
  unfold Chunk.store at heq
  split at heq
  · next hle =>
      cases heq
      exact ⟨rfl, rfl, rfl, overwrite_length hle⟩
  · cases heq

/-- `data_tail` is set by the first round. -/
theorem fillLoop_dataTail {string : Bool} {fuel len buf : Nat} (dataTail : Option Nat) :
    fillLoop string fuel { l with dataTail } (some buf) len
      = fillLoop string fuel l (some buf) len := by
  cases fuel <;> rfl

theorem BufList.put_self {buf : Nat} {b : Option UstreamBuf} (h : l.heap buf = b) :
    l.put buf b = l := by
  rw [BufList.put, ← h, Function.update_eq_self]

/-- The buffers from `data_tail` on take another `len` bytes. -/
theorem Shape.of_fillLoop {string : Bool} {fuel len : Nat} {c : Chunk}
    (hs : Shape string l full (x :: xs)) (hc : x.2.Alike c)
    (heq : fillLoop string fuel (l.put x.1 (some ⟨c, xs.head?.map Prod.fst⟩)) (some x.1) len
      = some l') :
    ∃ full' rest', Shape string l' full' rest' ∧ (contents (full' ++ rest')).length
        = (contents (full ++ x :: xs)).length + len ∧ Kept l l' ∧ l'.buffers = l.buffers := by
  induction fuel generalizing l full x xs c len with
  | zero => cases heq
  | succ fuel ih =>
      have hcell : (l.put x.1 (some ⟨c, xs.head?.map Prod.fst⟩)).heap x.1
          = some ⟨c, xs.head?.map Prod.fst⟩ := Function.update_self ..
      simp only [fillLoop, Option.bind_eq_bind, Option.bind_some, hcell] at heq
      obtain ⟨k, hk⟩ : ∃ k, k = min len (c.size - c.tail) := ⟨_, rfl⟩
      rw [← hk] at heq
      have hle := c.data_le
      have hsize := c.tail_le
      obtain ⟨c₁, hextend, hdata₁, htail₁, hsize₁, hbytes₁⟩ :=
        Chunk.extend_spec (c := c) (n := k) (by omega)
      obtain ⟨c₂, hfix, -, hdata₂, htail₂, hsize₂, hterm⟩ := Chunk.fixup_spec (c := c₁) string (by
        intro hstring
        rw [hsize₁, hbytes₁, hc.size, hc.length]
        exact (hs.terminated x (by simp) hstring).1)
      simp only [hextend, hfix, Option.bind_some] at heq
      have hdata := hc.data
      have htail := hc.tail
      have hused : c₂.tail = 0 ∨ c₂.data < c₂.tail := by
        rcases hs.used x (by simp) with hzero | hlt <;> omega
      have hput : (l.put x.1 (some ⟨c, xs.head?.map Prod.fst⟩)).put x.1
          (some ⟨c₂, xs.head?.map Prod.fst⟩) = l.put x.1 (some ⟨c₂, xs.head?.map Prod.fst⟩) := by
        simp [BufList.put]
      rw [hput] at heq
      have hs₂ := hs.set_cur hused hterm
      have hlen : (contents (full ++ (x.1, c₂) :: xs)).length
          = (contents (full ++ x :: xs)).length + k := by
        simp only [contents, List.flatMap_append, List.flatMap_cons, List.length_append,
          Chunk.content_length]
        omega
      split at heq
      · cases heq
        exact ⟨full, (x.1, c₂) :: xs, { hs₂ with dataTail := rfl }, by omega, ⟨rfl, rfl, rfl, rfl⟩,
          rfl⟩
      next hmore =>
      cases xs with
      | nil => cases fuel <;> cases heq
      | cons y ys =>
          have hsize' := hc.size
          have hall : ∀ z ∈ full ++ [(x.1, c₂)], z.2.tail = z.2.size := by
            intro z hz
            rcases List.mem_append.mp hz with hz | hz
            · exact hs₂.full_tail z hz
            · rw [List.mem_singleton.mp hz]
              change c₂.tail = c₂.size
              omega
          have hs₃ := hs₂.setDataTail (full ++ [(x.1, c₂)]) (y :: ys) (by simp) (by simp) hall
            fun z hz => hs₂.spare z (List.mem_cons_of_mem _ hz)
          have halike : y.2.Alike y.2 := ⟨rfl, rfl, rfl, rfl⟩
          obtain ⟨full', rest', hs', hcontents, hkept, hbuffers⟩ :=
            @ih _ _ _ _ (len - k) y.2 hs₃ halike (by
              rw [BufList.put_self (hs₃.cell rfl), fillLoop_dataTail]
              exact (fillLoop_dataTail (some x.1)).symm.trans heq)
          refine ⟨full', rest', hs', ?_, ⟨hkept.1, hkept.2, hkept.3, hkept.4⟩, hbuffers⟩
          rw [hcontents, List.append_assoc]
          change (contents (full ++ (x.1, c₂) :: y :: ys)).length + _ = _
          omega

theorem Took.of_fillRead {data : List UInt8} {r : BufList} (h : Queue s.stringData s.r q)
    (hstore : storeAt s.r s.r.dataTail data = some r)
    (heq : ustreamFillRead { s with r } data.length = some s') : Took s s' := by
  obtain ⟨full, rest, hs, hq⟩ := h.shape
  obtain ⟨dataBytes, hadd, heq⟩ := Option.bind_eq_some_iff.mp heq
  obtain ⟨r', hfill, heq⟩ := Option.bind_eq_some_iff.mp heq
  cases heq
  cases rest with
  | nil =>
      have hdataTail : s.r.dataTail = none := hs.dataTail
      simp only [storeAt, hdataTail] at hstore
      cases hstore
      simp only [BufList.setDataBytes, hdataTail, fillLoop] at hfill
      cases hfill
  | cons x xs =>
      have hdataTail : s.r.dataTail = some x.1 := hs.dataTail
      have hcell : s.r.heap x.1 = some ⟨x.2, xs.head?.map Prod.fst⟩ := hs.cell rfl
      simp only [storeAt, hdataTail, hcell, Option.bind_eq_bind, Option.bind_some] at hstore
      obtain ⟨c, hc, hr⟩ := Option.bind_eq_some_iff.mp hstore
      cases hr
      obtain ⟨rfl, hmax⟩ := addInt_eq_some hadd
      have hs' : Shape s.stringData (s.r.setDataBytes (s.r.dataBytes + data.length)) full
          (x :: xs) := { hs with }
      have hfill' : fillLoop s.stringData (s.r.buffers.toNat + 1)
          ((s.r.setDataBytes (s.r.dataBytes + data.length)).put x.1
            (some ⟨c, xs.head?.map Prod.fst⟩)) s.r.dataTail data.length = some r' := hfill
      rw [hdataTail] at hfill'
      obtain ⟨full', rest', hshape, hcontents, hkept, hbuffers⟩ :=
        hs'.of_fillLoop (Chunk.alike_of_store hc) hfill'
      have hcount := h.dataBytes
      rw [hq] at hcontents
      have hbytes : r'.dataBytes = s.r.dataBytes + data.length := hkept.dataBytes
      have hbufferLen : r'.bufferLen = s.r.bufferLen := hkept.bufferLen
      have hbuffers' : r'.buffers = s.r.buffers := hbuffers
      have hmax' : s.r.dataBytes + data.length ≤ INT_MAX := hmax
      have hnew : r'.dataBytes = (contents (full' ++ rest')).length := by omega
      have hsmall : ((contents (full' ++ rest')).length : Int) ≤ INT_MAX := by omega
      refine ⟨rfl, rfl, rfl, rfl, rfl, contents (full' ++ rest'),
        ⟨⟨full', rest', hshape, rfl⟩, ?_, ?_⟩, hnew, hsmall⟩
      · rw [hbufferLen]
        exact h.bufferLen
      · rw [hbuffers']
        exact h.buffers

/-! ## One step -/

/-- The invariant: both lists are queues. -/
structure Sound (s : Stream σ) : Prop where
  r : ∃ q, Queue s.stringData s.r q
  w : ∃ q, Queue false s.w q

/-- The callback `write` accepts no more than it is given. -/
def Impl.Accepts (I : Impl σ) : Prop :=
  ∀ readBlocked eof st buf more, (I.write readBlocked eof st buf more).2 ≤ buf.length

variable {I : Impl σ}

theorem Impl.Accepts.heeds (h : I.Accepts) (s : Stream σ) :
    (I.writeCb s).Heeds (fun _ => True) fun _ => True :=
  ⟨h s.readBlocked s.eof, fun _ _ _ _ _ => trivial, fun _ _ _ _ => trivial,
    fun _ _ _ _ => trivial⟩

theorem Sound.of_wrote (h : Sound s) (hw : Wrote busy good s s') : Sound s' where
  r := by
    rw [hw.r, hw.stringData]
    exact h.r
  w := hw.queue

theorem Sound.of_took (h : Sound s) (ht : Took s s') : Sound s' where
  r := ht.stringData ▸ ht.queue
  w := by
    rw [ht.w]
    exact h.w

theorem Sound.blocked (s : Stream σ) (h : Sound s') : Sound (I.blocked s s') := by
  unfold Impl.blocked
  split
  · exact ⟨h.r, h.w⟩
  · exact h

theorem Queue.set {string : Bool} (h : Queue string l q) (v : Settings) :
    Queue string (l.set v) q := by
  obtain ⟨full, rest, hs, hq⟩ := h.shape
  exact ⟨⟨⟨full, rest, { hs with }, hq⟩, v.bufferLen.2, h.buffers⟩, h.dataBytes, h.small⟩

/-- A list without buffers is freed. -/
theorem Queue.of_freeBuffers {string : Bool} (h : Queue string l q) (hzero : l.buffers = 0)
    (heq : ustreamFreeBuffers l = some l') : ∃ q', Queue string l' q' := by
  obtain ⟨full, rest, hs, hq⟩ := h.shape
  have hnil : full ++ rest = [] := by
    apply List.eq_nil_of_length_eq_zero
    have hbuffers := hs.buffers
    omega
  obtain ⟨heap, -, heq⟩ := Option.bind_eq_some_iff.mp heq
  cases heq
  rw [hnil] at hq
  refine ⟨[], Queue.empty rfl rfl rfl ?_ hzero h.bufferLen⟩
  rw [← hq] at h
  exact h.dataBytes

namespace Live

variable {s s' : Live σ φ} {e : Option Notify}

theorem sound_writePending (hI : I.Accepts) (h : Sound s.stream)
    (heq : s.writePending I = some (s', e)) : Sound s'.stream := by
  unfold writePending at heq
  split at heq
  · cases heq
    exact h
  · obtain ⟨⟨stream, wr⟩, hloop, heq⟩ := Option.bind_eq_some_iff.mp heq
    cases heq
    obtain ⟨q, hq⟩ := h.w
    exact h.of_wrote (Wrote.of_pendingLoop (hI.heeds s.stream) hq (.inr rfl) hloop)

theorem sound_fillRead {data : List UInt8} (h : Sound s.stream)
    (heq : s.fillRead data = some (s', e)) : Sound s'.stream := by
  obtain ⟨r, hstore, heq⟩ := Option.bind_eq_some_iff.mp heq
  obtain ⟨stream, hfill, heq⟩ := Option.bind_eq_some_iff.mp heq
  cases heq
  obtain ⟨q, hq⟩ := h.r
  exact h.of_took (Took.of_fillRead hq hstore hfill)

theorem sound_call {c : Call} (hI : I.Accepts) (h : Sound s.stream)
    (heq : s.call I c = some (s', e)) : Sound s'.stream := by
  obtain ⟨qr, hr⟩ := h.r
  obtain ⟨qw, hw⟩ := h.w
  have hcb := hI.heeds s.stream
  cases c with
  | write data more =>
      obtain ⟨⟨stream, r⟩, hwrite, heq⟩ := Option.bind_eq_some_iff.mp heq
      cases heq
      exact h.of_wrote (Wrote.of_write hcb hw hwrite)
  | printf text =>
      obtain ⟨⟨stream, r⟩, hprintf, heq⟩ := Option.bind_eq_some_iff.mp heq
      cases heq
      exact h.of_wrote (Wrote.of_printf hcb hw hprintf)
  | writePending => exact sound_writePending hI h heq
  | read buflen =>
      obtain ⟨⟨stream, buf⟩, hread, heq⟩ := Option.bind_eq_some_iff.mp heq
      cases heq
      exact (h.of_took (Took.of_read hr hread)).blocked s.stream
  | consume len =>
      obtain ⟨stream, hconsume, heq⟩ := Option.bind_eq_some_iff.mp heq
      cases heq
      exact (h.of_took (Took.of_consume hr hconsume)).blocked s.stream
  | setReadBlocked set =>
      obtain ⟨stream, hset, heq⟩ := Option.bind_eq_some_iff.mp heq
      cases heq
      exact (h.of_took (Took.of_setReadBlocked hr hset)).blocked s.stream
  | reserve len =>
      obtain ⟨⟨stream, ptr, maxlen⟩, hreserve, heq⟩ := Option.bind_eq_some_iff.mp heq
      cases heq
      exact (h.of_took (Took.of_reserve hr hreserve)).blocked s.stream
  | fillRead data => exact sound_fillRead h heq
  | stateChange =>
      cases heq
      exact ⟨h.r, h.w⟩
  | setEof eof =>
      cases heq
      exact ⟨h.r, h.w⟩
  | setWriteError writeError =>
      cases heq
      exact ⟨h.r, h.w⟩
  | settingsR v =>
      cases heq
      exact ⟨⟨qr, hr.set v⟩, h.w⟩
  | settingsW v =>
      cases heq
      exact ⟨h.r, ⟨qw, hw.set v⟩⟩

theorem sound_stateChangeCb (hok : s.stream.writeError = true → s.stream.w.buffers = 0)
    (h : Sound s.stream) (heq : s.stateChangeCb = some (s', e)) : Sound s'.stream := by
  unfold stateChangeCb at heq
  split at heq
  · split at heq
    · next herr =>
        obtain ⟨w, hfree, heq⟩ := Option.bind_eq_some_iff.mp heq
        cases heq
        obtain ⟨q, hq⟩ := h.w
        exact ⟨h.r, hq.of_freeBuffers (hok herr) hfree⟩
    · cases heq
      exact ⟨h.r, h.w⟩
  · cases heq

theorem sound_notified (wr : Int) (h : Sound s.stream) : Sound (s.notified wr).stream := by
  simp only [notified]
  split
  · exact ⟨h.r, h.w⟩
  · exact h

/-- No buffers are left in `w` when the timer fires after a write error. -/
def Clean (s : Live σ φ) : Action → Prop
  | .stateChange => s.stream.writeError = true → s.stream.w.buffers = 0
  | .call _ | .ret | .resume => True

instance (s : Live σ φ) : ∀ a, Decidable (s.Clean a)
  | .stateChange =>
      inferInstanceAs (Decidable (s.stream.writeError = true → s.stream.w.buffers = 0))
  | .call _ => isTrue trivial
  | .ret => isTrue trivial
  | .resume => isTrue trivial

theorem sound_turn {a : Action} (hI : I.Accepts) (hok : s.Clean a) (h : Sound s.stream)
    (heq : s.turn I a = some (s', e)) : Sound s'.stream := by
  cases a with
  | call c => exact sound_call hI h heq
  | stateChange => exact sound_stateChangeCb hok h heq
  | ret => cases heq
  | resume => cases heq

/-- **One step keeps the accounts.** -/
theorem sound_step {a : Action} (hI : I.Accepts) (hok : s.Clean a) (h : Sound s.stream)
    (heq : s.step I a = some (s', e)) : Sound s'.stream := by
  unfold step at heq
  split at heq
  · cases heq
    exact h
  · exact sound_turn hI hok h heq
  · exact sound_turn hI hok h heq
  · cases heq
    exact sound_notified (s := { s with stack := _ }) _ h
  · cases heq

end Live

theorem sound_init {s : Stream σ} (hzero : Zeroed s) : Sound (ustreamInitDefaults s) where
  r := by
    refine ⟨[], Queue.empty hzero.r.1 hzero.r.2.1 hzero.r.2.2 rfl rfl ?_⟩
    simp only [ustreamInitDefaults]
    split <;> omega
  w := by
    refine ⟨[], Queue.empty hzero.w.1 hzero.w.2.1 hzero.w.2.2 rfl rfl ?_⟩
    simp only [ustreamInitDefaults]
    split <;> omega

/-! ## Runs -/

/-- The counters and the pointers of a list agree with its buffers `xs`. -/
structure Accounts (l : BufList) (xs : List (Nat × Chunk)) : Prop where
  nodes : Seg l.heap l.head xs none
  buffers : l.buffers = xs.length
  dataBytes : l.dataBytes = (xs.map fun x => x.2.tail - x.2.data).sum
  tail : l.tail = xs.getLast?.map Prod.fst
  dataTail : xs = [] ∨ ∃ front x back, xs = front ++ x :: back ∧ l.dataTail = some x.1 ∧
    ∀ y ∈ back, y.2.tail - y.2.data = 0

def Accounted (l : BufList) : Prop := ∃ xs, Accounts l xs

theorem contents_length (xs : List (Nat × Chunk)) :
    (contents xs).length = (xs.map fun x => x.2.tail - x.2.data).sum := by
  simp [contents, List.length_flatMap]

theorem Queue.accounted {string : Bool} (h : Queue string l q) : Accounted l := by
  obtain ⟨full, rest, hs, hq⟩ := h.shape
  refine ⟨full ++ rest, hs.chain, hs.buffers, ?_, hs.tail, ?_⟩
  · rw [← contents_length, hq]
    exact h.dataBytes
  · cases rest with
    | nil =>
        left
        rw [hs.nonempty rfl, List.append_nil]
    | cons x xs =>
        right
        refine ⟨full, x, xs, rfl, hs.dataTail, ?_⟩
        intro y hy
        rw [hs.spare y hy, Nat.zero_sub]

/-- **The claim**, for an implementation. -/
def Accounting (I : Impl σ) : Prop :=
  ∀ (s₀ : Stream σ) (acts : List Action) (s : Live σ Empty) (trace : List (Option Notify)),
    Zeroed s₀ → run (Live.step I) (.init s₀) acts = some (s, trace) → s.stack = [] →
    Accounted s.stream.r ∧ Accounted s.stream.w

/-- **The accounts of both lists are right** in a run in which no buffers are left
in `w` when the timer fires after a write error. -/
theorem accounted_of_clean {s₀ : Stream σ} {acts : List Action} {s : Live σ φ}
    {trace : List (Option Notify)} (hI : I.Accepts) (hzero : Zeroed s₀)
    (hok : Along (Live.step I) Live.Clean (Live.init s₀ : Live σ φ) acts)
    (hrun : run (Live.step I) (Live.init s₀) acts = some (s, trace)) :
    Accounted s.stream.r ∧ Accounted s.stream.w := by
  have hkeep : ∀ (s : Live σ φ) a s' e, Sound s.stream → s.Clean a →
      s.step I a = some (s', e) → Sound s'.stream :=
    fun s a s' e h hok hstep => Live.sound_step hI hok h hstep
  have hsound : Sound s.stream :=
    @run_invariant _ _ _ _ _ (fun s => Sound s.stream) hkeep _ _ _ _ (sound_init hzero) hok hrun
  obtain ⟨q, hq⟩ := hsound.r
  obtain ⟨q', hq'⟩ := hsound.w
  exact ⟨hq.accounted, hq'.accounted⟩

/-- An implementation that accepts nothing, and fails when more is to come. -/
def failing : Impl Unit where
  write := fun _ _ _ _ more => ((), if more then -1 else 0)
  setReadBlocked := Stream.impl

theorem failing_accepts : failing.Accepts := by
  intro readBlocked eof st buf more
  simp only [failing]
  split <;> omega

/-- Three bytes do not go into one buffer, and the callback fails before the timer
is looked at; two buffers are left. -/
theorem accounted_of_clean_failing : ∃ (s : Live Unit Empty) (trace : List (Option Notify)),
    run (Live.step failing) (.init (zeroes 2))
      [.call (.write ⟨[1, 2, 3], by decide⟩ false), .call .writePending, .ret, .resume] =
        some (s, trace) ∧ Accounted s.stream.r ∧ Accounted s.stream.w := by
  have hsome : (run (Live.step failing) (.init (zeroes 2) : Live Unit Empty)
      [.call (.write ⟨[1, 2, 3], by decide⟩ false), .call .writePending, .ret,
        .resume]).isSome = true := by decide
  obtain ⟨⟨s, trace⟩, hrun⟩ := Option.isSome_iff_exists.mp hsome
  exact ⟨s, trace, hrun, accounted_of_clean failing_accepts (zeroes_zeroed 2) (by decide) hrun⟩

theorem Accounted.buffers_eq_zero (h : Accounted l) (hhead : l.head = none) : l.buffers = 0 := by
  obtain ⟨xs, h⟩ := h
  cases xs with
  | nil => exact h.buffers
  | cons x xs =>
      have hfirst := h.nodes.1
      rw [hhead] at hfirst
      cases hfirst

/-- The timer fires after the callback has failed. -/
theorem not_accounting : failing.Accepts ∧ ¬Accounting failing := by
  refine ⟨failing_accepts, fun h => ?_⟩
  have hrun : ∃ (s : Live Unit Empty) (trace : List (Option Notify)),
      run (Live.step failing) (.init (zeroes 2))
        [.call (.write ⟨[1, 2, 3], by decide⟩ false), .call .writePending, .ret, .resume,
          .stateChange, .ret] = some (s, trace) ∧
        s.stack = [] ∧ s.stream.w.head = none ∧ s.stream.w.buffers = 2 := by
    refine ⟨_, _, rfl, ?_⟩
    decide
  obtain ⟨s, trace, hrun, hstack, hhead, hbuffers⟩ := hrun
  have hzero := (h (zeroes 2) _ s trace (zeroes_zeroed 2) hrun hstack).2.buffers_eq_zero hhead
  rw [hbuffers] at hzero
  cases hzero

end Libubox.Ustream
