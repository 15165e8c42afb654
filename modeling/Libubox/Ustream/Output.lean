import Libubox.Lib.Machine
import Libubox.Ustream.Shape

/-!
# The output queue

An application writes and prints, the implementation of the stream calls
`ustream_write_pending`, and settings change, in any order.  What the callback
`write` has accepted, followed by what is queued in `w`, is what the calls said
they took (`OutputFifo`).

The counters `data_bytes` and `buffers` are of type `int`; so this holds as long
as the list is not made to hold more than `INT_MAX` bytes (`Fits`).
-/

namespace Libubox.Ustream

open Bytes Chain Machine

/-- The data of one call, whose length is an `int`. -/
abbrev Data := { bs : List UInt8 // (bs.length : Int) ≤ INT_MAX }

/-- The calls that concern the output, and changes of the settings. -/
inductive WriteOp where
  | write (data : Data) (more : Bool)
  | printf (text : Data)
  | writePending
  | settings (bufferLen : { n : Nat // 0 < n }) (minBuffers maxBuffers : Int) (eof : Bool)

/-- The data a call was made with and what it returned. -/
structure Returned where
  data : List UInt8
  r : Int

variable {σ : Type}

/-- One call. -/
def writeStep (cb : WriteCb σ) (s : Stream σ) : WriteOp → Option (Stream σ × Returned)
  | .write data more => (ustreamWrite cb s data more).map fun q => (q.1, ⟨data, q.2⟩)
  | .printf text => (ustreamPrintf cb s text).map fun q => (q.1, ⟨text, q.2⟩)
  | .writePending => (ustreamWritePending cb s).map fun q => (q.1, ⟨[], 0⟩)
  | .settings bufferLen minBuffers maxBuffers eof =>
      some ({ s with w := { s.w with bufferLen, minBuffers, maxBuffers }, eof }, ⟨[], 0⟩)

/-- The first `r` bytes of the data of every call. -/
def taken (trace : List Returned) : List UInt8 := trace.flatMap fun e => e.data.take e.r.toNat

/-- **The claim.** -/
def OutputFifo (cb : WriteCb σ) (s₀ : Stream σ) (ops : List WriteOp) : Prop :=
  ∃ s trace, run (writeStep cb) s₀ ops = some (s, trace) ∧
    s.sent ++ queued s.w = taken trace ∧ s.w.dataBytes = (queued s.w).length

/-- The callback accepts any number of bytes it is given, and never fails. -/
def WriteCb.Accepts (cb : WriteCb σ) : Prop :=
  ∀ st buf more, 0 ≤ (cb st buf more).2 ∧ (cb st buf more).2 ≤ buf.length

/-- A call does not make the list hold more than `INT_MAX` bytes, and a text to
print has a length and a terminator. -/
def Fits (s : Stream σ) : WriteOp → Prop
  | .write data _ => Holds s.w data.1.length
  | .printf text => (text.1.length + 1 : Int) ≤ INT_MAX ∧ Holds s.w (max text.1.length 1)
  | .writePending => True
  | .settings .. => True

instance (s : Stream σ) : ∀ op, Decidable (Fits s op)
  | .write data _ => inferInstanceAs (Decidable (Holds s.w data.1.length))
  | .printf text =>
      inferInstanceAs (Decidable
        ((text.1.length + 1 : Int) ≤ INT_MAX ∧ Holds s.w (max text.1.length 1)))
  | .writePending => isTrue trivial
  | .settings .. => isTrue trivial

/-! ## One buffer -/

variable {l : BufList} {full xs : List (Nat × Chunk)} {x : Nat × Chunk}

/-- Bytes are stored at `data_tail`. -/
theorem Shape.push (hs : Shape false l full (x :: xs)) (bs : List UInt8) (n : Nat)
    (hbs : x.2.tail + bs.length ≤ x.2.bytes.length) (hn : n ≤ bs.length)
    (hsize : x.2.tail + n ≤ x.2.size) :
    ∃ c₁ c₂, x.2.store bs = some c₁ ∧ c₁.extend n = some c₂ ∧
      Shape false (l.put x.1 (some ⟨c₂, xs.head?.map Prod.fst⟩)) full ((x.1, c₂) :: xs) ∧
      contents (full ++ (x.1, c₂) :: xs) = contents (full ++ x :: xs) ++ bs.take n ∧
      bound (l.put x.1 (some ⟨c₂, xs.head?.map Prod.fst⟩)) = bound l := by
  obtain ⟨c₁, c₂, hstore, hextend, -, hcontent, hdata, htail, hcsize⟩ :=
    Chunk.push_spec hbs hn hsize
  have hle := x.2.data_le
  have hused : c₂.tail = 0 ∨ c₂.data < c₂.tail := by
    rcases hs.used x (by simp) with hzero | hlt <;> omega
  have hs' := hs.set_cur hused fun h => nomatch h
  have hspare : contents xs = [] := contents_eq_nil hs.spare
  refine ⟨c₁, c₂, hstore, hextend, hs', ?_, ?_⟩
  · have hold : contents (x :: xs) = x.2.content ++ contents xs := rfl
    have hnew : contents ((x.1, c₂) :: xs) = c₂.content ++ contents xs := rfl
    rw [contents_append, contents_append, hold, hnew, hspare, hcontent]
    simp
  · rw [hs'.bound_eq, hs.bound_eq]
    simp [BufList.put, hcsize]

/-- What is stored at `data_tail` is queued. -/
theorem Queue.push {q bs : List UInt8} {n : Nat} {c : Chunk} (h : Queue false l q)
    (hs : Shape false (l.put x.1 (some ⟨c, xs.head?.map Prod.fst⟩)) full ((x.1, c) :: xs))
    (hcontent : contents (full ++ (x.1, c) :: xs) = q ++ bs.take n) (hn : n ≤ bs.length)
    (hmax : l.dataBytes + n ≤ INT_MAX) :
    Queue false
      ((l.put x.1 (some ⟨c, xs.head?.map Prod.fst⟩)).setDataBytes (l.dataBytes + n))
      (q ++ bs.take n) :=
  { shape := ⟨full, (x.1, c) :: xs, { hs with }, hcontent⟩
    dataBytes := by
      rw [List.length_append, List.length_take, Nat.min_eq_left hn]
      simp [BufList.setDataBytes, h.dataBytes]
    small := by
      have hbytes := h.dataBytes
      rw [List.length_append, List.length_take, Nat.min_eq_left hn]
      omega
    bufferLen := h.bufferLen
    buffers := h.buffers }

/-- The counter `data_bytes` of a list that is not made to hold too much. -/
theorem Holds.dataBytes_le {q : List UInt8} {n k : Nat} {l' : BufList}
    (hholds : Holds l n) (h : Queue false l q) (hk : k ≤ n) (hbound : bound l' = bound l)
    (hs : Shape false l' full xs) (hlen : (contents (full ++ xs)).length = q.length + k) :
    l.dataBytes + k ≤ INT_MAX := by
  have hsizes := contents_length_le (full ++ xs)
  rw [Holds, h.queued_eq] at hholds
  rw [hs.bound_eq] at hbound
  have hbytes := h.dataBytes
  rcases hholds with hlow | ⟨-, hhigh⟩ <;> omega

theorem Queue.addInt_dataBytes {q : List UInt8} {k : Nat} (h : Queue false l q)
    (hmax : l.dataBytes + k ≤ INT_MAX) : addInt l.dataBytes k = some (l.dataBytes + k) := by
  have hbytes := h.dataBytes
  apply addInt_of_le <;> omega

/-- The data moves into the queue. -/
theorem Holds.of_queue {l' : BufList} {q q' : List UInt8} {n : Nat} (hholds : Holds l n) (k : Nat)
    (h : Queue false l q) (h' : Queue false l' q') (hlen : q'.length + k ≤ q.length + n)
    (hmax : l'.maxBuffers = l.maxBuffers) (hbound : bound l' = bound l) : Holds l' k := by
  rw [Holds, h.queued_eq] at hholds
  rw [Holds, h'.queued_eq, hmax, hbound]
  refine hholds.imp (fun hlow => ?_) id
  omega

/-- `ustream_write_buffered` queues a part of the data from its start. -/
theorem ustreamWriteBuffered_spec (stringData : Bool) {fuel : Nat} {q data : List UInt8} {wr : Int}
    (hfuel : data.length < fuel) (h : Queue false l q) (hholds : Holds l data.length)
    (hpos : 0 ≤ wr) (hmax : wr + data.length ≤ INT_MAX) :
    ∃ l' n, ustreamWriteBuffered stringData fuel l data wr = some (l', wr + (n : Nat)) ∧
      n ≤ data.length ∧ Queue false l' (q ++ data.take n) ∧ l'.maxBuffers = l.maxBuffers ∧
      (l.maxBuffers ≤ 0 → n = data.length) := by
  induction fuel generalizing l q data wr with
  | zero => omega
  | succ fuel ih =>
      by_cases hnil : data = []
      · subst hnil
        refine ⟨l, 0, by simp [ustreamWriteBuffered], Nat.le_refl 0, ?_, rfl, fun _ => rfl⟩
        simpa using h
      have hdata : 0 < data.length := List.length_pos_of_ne_nil hnil
      obtain ⟨l₁, ok, hprep, h₁, hholds₁, hlimit, hall, -, hroom⟩ :=
        h.prepare stringData false data.length hholds hdata
      cases ok with
      | false =>
          refine ⟨l₁, 0, ?_, Nat.zero_le _, by simpa using h₁, hlimit, fun h => nomatch hall h⟩
          rw [ustreamWriteBuffered, if_neg hnil, hprep, Nat.cast_zero, Int.add_zero]
          rfl
      | true =>
          obtain ⟨full, x, xs, hs, hq, hlt⟩ := hroom rfl
          have hdataTail : l₁.dataTail = some x.1 := hs.dataTail
          have hcell : l₁.heap x.1 = some ⟨x.2, xs.head?.map Prod.fst⟩ := hs.cell rfl
          have hsize := x.2.size_le
          obtain ⟨k, hk⟩ : ∃ k, k = min (x.2.size - x.2.tail) data.length := ⟨_, rfl⟩
          have htake : (data.take k).length = k := by
            rw [List.length_take]
            omega
          obtain ⟨c₁, c₂, hstore, hextend, hs₂, hcontent, hbound⟩ :=
            hs.push (data.take k) k (by omega) (by omega) (by omega)
          rw [List.take_take, Nat.min_self, hq] at hcontent
          have hsmall : l₁.dataBytes + k ≤ INT_MAX := by
            refine hholds₁.dataBytes_le h₁ (by omega) hbound hs₂ ?_
            rw [hcontent, List.length_append, htake]
          have hbytes := h₁.addInt_dataBytes hsmall
          have hwr : addInt wr k = some (wr + k) := by
            apply addInt_of_le <;> omega
          have h₂ := h₁.push hs₂ hcontent (by omega) hsmall
          have hdrop : (data.drop k).length = data.length - k := List.length_drop
          have hholds₂ := hholds₁.of_queue (data.drop k).length h₁ h₂
            (by rw [List.length_append]; omega) rfl hbound
          obtain ⟨l', n, hrest, hn, h', hlimit', hall'⟩ :=
            ih (by omega) h₂ hholds₂ (show 0 ≤ wr + (k : Int) by omega) (by omega)
          refine ⟨l', k + n, ?_, by omega, ?_, hlimit'.trans hlimit, fun hunlimited => ?_⟩
          · rw [ustreamWriteBuffered, if_neg hnil, hprep]
            simp only [Option.bind_eq_bind, Option.bind_some, hdataTail, hcell, ← hk, hstore,
              hextend, hwr, hbytes, hrest, Bool.not_true, Bool.false_eq_true, if_false]
            rw [Int.add_assoc, Nat.cast_add]
          · rw [List.append_assoc, ← List.take_add] at h'
            exact h'
          · have hn' := hall' (hlimit.trans_le hunlimited)
            omega

/-- `ustream_write_pending` takes from the queue what the callback accepts. -/
theorem writePendingLoop_spec {cb : WriteCb σ} (hcb : cb.Accepts) {fuel : Nat} {s : Stream σ}
    {buf : Option Nat} {wr : Int} {q : List UInt8} (hfuel : q.length < fuel)
    (h : Queue false s.w q) (hbuf : buf = none ∨ buf = s.w.head) (hpos : 0 ≤ wr)
    (hmax : wr + q.length ≤ INT_MAX) :
    ∃ w impl k wr', writePendingLoop cb fuel s buf wr
        = some ({ s with w, impl, sent := s.sent ++ q.take k }, wr') ∧
      Queue false w (q.drop k) := by
  induction fuel generalizing s buf wr q with
  | zero => omega
  | succ fuel ih =>
      have hstay : ∃ w impl k wr', some (s, wr)
          = some ({ s with w, impl, sent := s.sent ++ q.take k }, wr') ∧
            Queue false w (q.drop k) :=
        ⟨s.w, s.impl, 0, wr, by simp, h⟩
      cases buf with
      | none => exact hstay
      | some buf =>
          by_cases hzero : s.w.dataBytes = 0
          · simpa [writePendingLoop, hzero] using hstay
          have hbytes := h.dataBytes
          have hne : q ≠ [] := by
            rintro rfl
            exact hzero hbytes
          obtain ⟨buf', b, hfirst⟩ := h.toContent.first hne
          obtain rfl : buf = buf' := by
            rcases hbuf with hbuf | hbuf
            · cases hbuf
            · exact Option.some.inj (hbuf.trans hfirst.head)
          obtain ⟨hlo, hhi⟩ := hcb s.impl b.val.content b.next.isSome
          obtain ⟨n, hn⟩ := Int.eq_ofNat_of_zero_le hlo
          obtain ⟨impl, hcall⟩ : ∃ impl, cb s.impl b.val.content b.next.isSome = (impl, (n : Int)) :=
            ⟨_, Prod.ext rfl hn⟩
          rw [hn] at hhi
          have hle : n ≤ b.val.content.length := by omega
          have hq := hfirst.start.length_le
          have htake : b.val.content.take n = q.take n := by
            obtain ⟨rest, rfl⟩ := hfirst.start
            rw [List.take_append_of_le_length hle]
          have hcontent : b.val.content.length = b.val.tail - b.val.data := b.val.content_length
          have hneg : ¬(n : Int) < 0 := by omega
          rcases Nat.eq_zero_or_pos n with rfl | hn0
          · refine ⟨s.w, impl, 0, wr, ?_, h⟩
            simp [writePendingLoop, hzero, hfirst.heap, Stream.write, hcall]
          have hnz : ¬(n : Int) = 0 := by omega
          have hwr : addInt wr n = some (wr + n) := by
            apply addInt_of_le <;> omega
          have hsub : addInt s.w.dataBytes (-n) = some (s.w.dataBytes + -n) := by
            apply addInt_of_le
            · omega
            · have hbig : (0 : Int) ≤ n := by omega
              omega
          have hcount : s.w.dataBytes + -n = (q.drop n).length := by
            rw [List.length_drop]
            omega
          have hsmall : ((q.drop n).length : Int) ≤ INT_MAX := by
            have hold := h.small
            rw [List.length_drop]
            omega
          have hfirst' : First false (s.w.setDataBytes (s.w.dataBytes + -n)) q buf b :=
            (h.toContent.setDataBytes _).first_of hne hfirst.head hfirst.heap
          by_cases hshort : n < b.val.content.length
          · obtain ⟨c, hadvance, hrest⟩ := hfirst'.advance n hshort
            refine ⟨_, impl, n, wr + n, ?_, hrest, hcount, hsmall⟩
            have hless : (n : Int) < (b.val.tail - b.val.data : Nat) := by omega
            simp only [writePendingLoop, hzero, hfirst.heap, Stream.write, hcall, hneg, hnz, hwr,
              hsub, hless, hadvance, htake, if_true, if_false, Option.bind_eq_bind,
              Option.bind_some, Int.toNat_natCast]
            rfl
          · have hall : n = b.val.content.length := by omega
            obtain ⟨w, hfree, hkept, hrest, hnext⟩ := hfirst'.free
            rw [← hall] at hrest
            have hless : ¬(n : Int) < (b.val.tail - b.val.data : Nat) := by omega
            have hlen : (q.drop n).length = q.length - n := List.length_drop
            have hpos' : 0 ≤ wr + (n : Int) := by omega
            obtain ⟨w', impl', k, wr', hloop, hqueue⟩ :=
              ih (s := { s with w, impl, sent := s.sent ++ q.take n }) (by omega)
                ⟨hrest, hkept.dataBytes.trans hcount, hsmall⟩ (hnext.imp_left And.left) hpos' (by omega)
            refine ⟨w', impl', n + k, wr', ?_, ?_⟩
            · simp only [writePendingLoop, hzero, hfirst.heap, Stream.write, hcall, hneg, hnz, hwr,
                hsub, hless, hfree, htake, if_false, Option.bind_eq_bind, Option.bind_some,
                Int.toNat_natCast]
              rw [hloop, List.append_assoc, ← List.take_add]
            · rw [List.drop_drop] at hqueue
              exact hqueue

/-! ## One call -/

/-- The invariant: the calls took `acc`. -/
structure Output (s : Stream σ) (acc : List UInt8) : Prop where
  queue : ∃ q, Queue false s.w q ∧ s.sent ++ q = acc
  noError : s.writeError = false

variable {cb : WriteCb σ} {s : Stream σ} {acc : List UInt8}

theorem Queue.eq_nil {q : List UInt8} (h : Queue false l q) (hzero : l.dataBytes = 0) : q = [] := by
  apply List.eq_nil_of_length_eq_zero
  have hbytes := h.dataBytes
  omega

theorem Holds.mono {n k : Nat} (h : Holds l n) (hk : k ≤ n) : Holds l k := by
  refine h.imp (fun hlow => ?_) id
  omega

theorem Output.writeBuffered {w : BufList} {q data : List UInt8} {wr : Int} (s : Stream σ)
    (hqueue : Queue false w q) (hacc : s.sent ++ q = acc) (herr : s.writeError = false)
    (hholds : Holds w data.length) (hpos : 0 ≤ wr) (hmax : wr + data.length ≤ INT_MAX) :
    ∃ s' n, writeBuffered { s with w } data wr = some (s', wr + (n : Nat)) ∧
      Output s' (acc ++ data.take n) := by
  obtain ⟨w', n, hbuffered, -, hqueue', -, -⟩ := ustreamWriteBuffered_spec s.stringData
    (Nat.lt_succ_self data.length) hqueue hholds hpos hmax
  refine ⟨{ s with w := w' }, n, by simp [Ustream.writeBuffered, hbuffered], ⟨_, hqueue', ?_⟩,
    herr⟩
  rw [← hacc, List.append_assoc]

/-- The callback is called with the data, and the rest is queued. -/
theorem Output.direct (hcb : cb.Accepts) (h : Output s acc) (hzero : s.w.dataBytes = 0)
    {data : List UInt8} (hlen : (data.length : Int) ≤ INT_MAX) (hholds : Holds s.w data.length)
    (more : Bool) : ∃ (s₁ : Stream σ) (n : Nat), s.write cb data more = (s₁, (n : Int)) ∧ n ≤ data.length ∧
      Output s₁ (acc ++ data.take n) ∧ ∃ s' k,
        Ustream.writeBuffered s₁ (data.drop n) n = some (s', (n : Int) + (k : Nat)) ∧
        Output s' (acc ++ data.take (n + k)) := by
  obtain ⟨q, hqueue, hacc⟩ := h.queue
  obtain rfl : q = [] := hqueue.eq_nil hzero
  obtain ⟨hlo, hhi⟩ := hcb s.impl data more
  obtain ⟨n, hn⟩ := Int.eq_ofNat_of_zero_le hlo
  rw [hn] at hhi
  have hle : n ≤ data.length := by omega
  have hdrop : (data.drop n).length = data.length - n := List.length_drop
  have hsent : s.sent ++ data.take n ++ [] = acc ++ data.take n := by
    rw [← hacc]
    simp
  have hholds' : Holds s.w (data.drop n).length := hholds.mono (by omega)
  have hpos : (0 : Int) ≤ n := by omega
  obtain ⟨s', k, hbuffered, hout⟩ := Output.writeBuffered
    { s with impl := (cb s.impl data more).1, sent := s.sent ++ data.take n }
    hqueue hsent h.noError hholds' hpos (by omega)
  refine ⟨{ s with impl := (cb s.impl data more).1, sent := s.sent ++ data.take n }, n, ?_, hle,
    ⟨⟨[], hqueue, hsent⟩, h.noError⟩, s', k, hbuffered, ?_⟩
  · rw [Stream.write, hn]
    rfl
  · rw [List.append_assoc, ← List.take_add] at hout
    exact hout

theorem ustreamWrite_of_queued (herr : s.writeError = false) (hbytes : s.w.dataBytes ≠ 0)
    (data : List UInt8) (more : Bool) : ustreamWrite cb s data more = writeBuffered s data 0 := by
  simp only [ustreamWrite, herr, hbytes, Bool.false_eq_true, if_false]

theorem ustreamWrite_spec (hcb : cb.Accepts) (h : Output s acc) {data : List UInt8}
    (hlen : (data.length : Int) ≤ INT_MAX) (hholds : Holds s.w data.length) (more : Bool) :
    ∃ s' r, ustreamWrite cb s data more = some (s', r) ∧
      Output s' (acc ++ data.take r.toNat) := by
  by_cases hzero : s.w.dataBytes = 0
  · obtain ⟨s₁, n, hwrite, hle, hs₁, s', k, hbuffered, hs'⟩ :=
      h.direct hcb hzero hlen hholds more
    have hneg : ¬(n : Int) < 0 := by omega
    by_cases hall : (n : Int) = data.length
    · refine ⟨s₁, n, ?_, hs₁⟩
      simp [ustreamWrite, h.noError, hzero, hwrite, hall]
    · refine ⟨s', n + k, ?_, hs'⟩
      simp only [ustreamWrite, h.noError, hzero, hwrite, hneg, hall, if_true, if_false,
        Int.toNat_natCast, Bool.false_eq_true]
      exact hbuffered
  · obtain ⟨q, hqueue, hacc⟩ := h.queue
    obtain ⟨s', n, hbuffered, hs'⟩ :=
      Output.writeBuffered s hqueue hacc h.noError hholds (le_refl 0) (by omega)
    rw [Int.zero_add] at hbuffered
    exact ⟨s', n, (ustreamWrite_of_queued h.noError hzero data more).trans hbuffered, hs'⟩

/-- The text is printed into the buffer at `data_tail` as far as it goes. -/
theorem vprintfQueued_spec (h : Output s acc) {text : List UInt8}
    (hlen : (text.length + 1 : Int) ≤ INT_MAX) (hholds : Holds s.w (max text.length 1)) :
    ∃ s' r, vprintfQueued s text = some (s', r) ∧
      Output s' (acc ++ text.take r.toNat) := by
  obtain ⟨q, hqueue, hacc⟩ := h.queue
  obtain ⟨l₁, ok, hprep, h₁, hholds₁, -, -, -, hroom⟩ :=
    hqueue.prepare s.stringData false 1 hholds (by omega)
  cases ok with
  | false =>
      refine ⟨{ s with w := l₁ }, 0, ?_, ⟨⟨q, h₁, by simpa using hacc⟩, h.noError⟩⟩
      rw [vprintfQueued, hprep]
      rfl
  | true =>
      obtain ⟨full, x, xs, hs, hq, hlt⟩ := hroom rfl
      have hdataTail : l₁.dataTail = some x.1 := hs.dataTail
      have hcell : l₁.heap x.1 = some ⟨x.2, xs.head?.map Prod.fst⟩ := hs.cell rfl
      have hsize := x.2.size_le
      obtain ⟨buflen, hbuflen⟩ : ∃ buflen, buflen = x.2.size - x.2.tail := ⟨_, rfl⟩
      obtain ⟨wr, hwr⟩ : ∃ wr, wr = if text.length ≥ buflen then buflen - 1 else text.length :=
        ⟨_, rfl⟩
      have hmin : wr = min (buflen - 1) text.length := by
        rw [hwr]
        split <;> omega
      have hstored : (text.take (buflen - 1) ++ [0]).length = wr + 1 := by
        rw [List.length_append, List.length_take, hmin]
        rfl
      have htake : (text.take (buflen - 1) ++ [0]).take wr = text.take wr := by
        rw [List.take_append_of_le_length (by rw [List.length_take]; omega), List.take_take]
        congr 1
        omega
      obtain ⟨c₁, c₂, hstore, hextend, hs₂, hcontent, hbound⟩ :=
        hs.push (text.take (buflen - 1) ++ [0]) wr (by omega) (by omega) (by omega)
      rw [htake, hq] at hcontent
      have hwrlen : (text.take wr).length = wr := by
        rw [List.length_take]
        omega
      have hsmall : l₁.dataBytes + wr ≤ INT_MAX := by
        refine hholds₁.dataBytes_le h₁ (by omega) hbound hs₂ ?_
        rw [hcontent, List.length_append, hwrlen]
      have hbytes := h₁.addInt_dataBytes hsmall
      have h₂ := h₁.push hs₂ hcontent (by omega) hsmall
      have hacc₂ : s.sent ++ (q ++ text.take wr) = acc ++ text.take wr := by
        rw [← hacc, List.append_assoc]
      by_cases hshort : text.length < buflen
      · refine ⟨{ s with
            w := (l₁.put x.1 (some ⟨c₂, xs.head?.map Prod.fst⟩)).setDataBytes
              (l₁.dataBytes + wr) }, wr, ?_, ⟨⟨_, h₂, hacc₂⟩, h.noError⟩⟩
        simp only [vprintfQueued, hprep, hdataTail, hcell, ← hbuflen, ← hwr, hstore, hextend,
          hbytes, hshort, Bool.not_true, Bool.false_eq_true, if_true, if_false,
          Option.bind_eq_bind, Option.bind_some]
        rfl
      · have hdrop : (text.drop wr).length = text.length - wr := List.length_drop
        have hholds₂ := hholds₁.of_queue (text.drop wr).length h₁ h₂
          (by rw [List.length_append]; omega) rfl hbound
        have hpos : (0 : Int) ≤ wr := by omega
        obtain ⟨s', k, hbuffered, hs'⟩ :=
          Output.writeBuffered s h₂ hacc₂ h.noError hholds₂ hpos (by omega)
        have hterm : addInt text.length 1 = some (text.length + 1 : Int) := by
          apply addInt_of_le <;> omega
        refine ⟨s', wr + k, ?_, ?_⟩
        · simp only [vprintfQueued, hprep, hdataTail, hcell, ← hbuflen, ← hwr, hstore, hextend,
            hbytes, hshort, hterm, Bool.not_true, Bool.false_eq_true, if_false,
            Option.bind_eq_bind, Option.bind_some]
          exact hbuffered
        · rw [List.append_assoc, ← List.take_add] at hs'
          exact hs'

theorem ustreamVprintf_spec (hcb : cb.Accepts) (h : Output s acc) {text : List UInt8}
    (hlen : (text.length + 1 : Int) ≤ INT_MAX) (hholds : Holds s.w (max text.length 1)) :
    ∃ s' r, ustreamVprintf cb s text = some (s', r) ∧
      Output s' (acc ++ text.take r.toNat) := by
  by_cases hzero : s.w.dataBytes = 0
  swap
  · obtain ⟨s', r, hprintf, hs'⟩ := vprintfQueued_spec h hlen hholds
    refine ⟨s', r, ?_, hs'⟩
    simp only [ustreamVprintf, h.noError, hzero, Bool.false_eq_true, if_false]
    exact hprintf
  have hholds' : Holds s.w text.length := hholds.mono (by omega)
  by_cases hstack : text.length < MAX_STACK_BUFLEN
  · obtain ⟨s₁, n, hwrite, hle, hs₁, s', k, hbuffered, hs'⟩ :=
      h.direct hcb hzero (by omega) hholds' false
    have hneg : ¬(n : Int) < 0 := by omega
    by_cases hall : (n : Int) = text.length
    · refine ⟨s₁, n, ?_, hs₁⟩
      simp [ustreamVprintf, h.noError, hzero, hstack, hwrite, hall]
    · refine ⟨s', n + k, ?_, hs'⟩
      simp only [ustreamVprintf, h.noError, hzero, hstack, hwrite, hneg, hall, if_true, if_false,
        Int.toNat_natCast, Bool.false_eq_true]
      exact hbuffered
  · obtain ⟨s', r, hwrite, hs'⟩ := ustreamWrite_spec hcb h (by omega) hholds' false
    have hroom : addInt text.length 1 = some (text.length + 1) := by
      apply addInt_of_le <;> omega
    refine ⟨s', r, ?_, hs'⟩
    simp [ustreamVprintf, h.noError, hzero, hstack, hroom, hwrite]

theorem ustreamWritePending_spec (hcb : cb.Accepts) (h : Output s acc) :
    ∃ s' ok, ustreamWritePending cb s = some (s', ok) ∧ Output s' acc := by
  obtain ⟨q, hqueue, hacc⟩ := h.queue
  have hmax : (0 : Int) + q.length ≤ INT_MAX := by
    rw [Int.zero_add]
    exact hqueue.small
  obtain ⟨w, impl, k, wr, hloop, hqueue'⟩ := writePendingLoop_spec hcb
    (Nat.lt_succ_self q.length) hqueue (.inr rfl) (le_refl 0) hmax
  have hfuel : s.w.dataBytes.toNat + 1 = q.length + 1 := by
    rw [hqueue.dataBytes, Int.toNat_natCast]
  have hsent : s.sent ++ q.take k ++ q.drop k = acc := by
    rw [List.append_assoc, List.take_append_drop, hacc]
  simp only [ustreamWritePending, h.noError, hfuel, hloop, Bool.false_eq_true, if_false,
    Option.bind_eq_bind, Option.bind_some]
  refine ⟨_, _, rfl, ?_⟩
  split
  · exact ⟨⟨q.drop k, hqueue', hsent⟩, rfl⟩
  · exact ⟨⟨q.drop k, hqueue', hsent⟩, rfl⟩

/-- **The step lemma.** -/
theorem writeStep_spec (hcb : cb.Accepts) (h : Output s acc) {op : WriteOp} (hfits : Fits s op) :
    ∃ s' e, writeStep cb s op = some (s', e) ∧ Output s' (acc ++ e.data.take e.r.toNat) := by
  cases op with
  | write data more =>
      obtain ⟨s', r, hwrite, hs'⟩ := ustreamWrite_spec hcb h data.2 hfits more
      exact ⟨s', ⟨data, r⟩, by simp [writeStep, hwrite], hs'⟩
  | printf text =>
      obtain ⟨s', r, hprintf, hs'⟩ := ustreamVprintf_spec hcb h hfits.1 hfits.2
      exact ⟨s', ⟨text, r⟩, by simp [writeStep, ustreamPrintf, h.noError, hprintf], hs'⟩
  | writePending =>
      obtain ⟨s', ok, hpending, hs'⟩ := ustreamWritePending_spec hcb h
      exact ⟨s', ⟨[], 0⟩, by simp [writeStep, hpending], by simpa using hs'⟩
  | settings bufferLen minBuffers maxBuffers eof =>
      obtain ⟨q, hqueue, hacc⟩ := h.queue
      obtain ⟨full, rest, hs, hq⟩ := hqueue.shape
      refine ⟨_, _, rfl, ⟨q, ⟨⟨⟨full, rest, { hs with }, hq⟩, bufferLen.2, hqueue.buffers⟩,
        hqueue.dataBytes, hqueue.small⟩, by simpa using hacc⟩, h.noError⟩

/-! ## Runs -/

theorem outputFifo_of_fits (hcb : cb.Accepts) (hzero : Zeroed s) {ops : List WriteOp}
    (hfits : Along (writeStep cb) Fits (ustreamInitDefaults s) ops) :
    OutputFifo cb (ustreamInitDefaults s) ops := by
  have hinit : Output (ustreamInitDefaults s) (taken []) := by
    refine ⟨⟨[], Queue.empty hzero.w.1 hzero.w.2.1 hzero.w.2.2 rfl rfl ?_, ?_⟩, rfl⟩
    · simp only [ustreamInitDefaults]
      split <;> omega
    · simp [ustreamInitDefaults, hzero.sent, taken]
  have hstep : ∀ s past op, Output s (taken past) → Fits s op →
      ∃ s' e, writeStep cb s op = some (s', e) ∧ Output s' (taken (past ++ [e])) := by
    intro s past op hs hop
    obtain ⟨s', e, hstep, hs'⟩ := writeStep_spec hcb hs hop
    refine ⟨s', e, hstep, ?_⟩
    rw [taken, List.flatMap_append]
    simpa [taken] using hs'
  obtain ⟨s', trace, hrun, hs'⟩ := exists_run hstep hinit hfits
  obtain ⟨q, hqueue, hacc⟩ := hs'.queue
  refine ⟨s', trace, hrun, ?_, ?_⟩
  · rw [hqueue.queued_eq]
    exact hacc
  · rw [hqueue.queued_eq]
    exact hqueue.dataBytes

/-- An implementation that accepts `n` bytes at most. -/
def accepting (n : Nat) : WriteCb Unit := fun _ buf _ => ((), min n buf.length)

theorem accepting_accepts (n : Nat) : (accepting n).Accepts := by
  intro st buf more
  simp only [accepting]
  omega

/-- Three bytes are written and two printed, and each call of the implementation
accepts one. -/
theorem outputFifo_of_fits_short :
    OutputFifo (accepting 1) (ustreamInitDefaults (zeroes 2))
      [.write ⟨[1, 2, 3], by decide⟩ false, .printf ⟨[4, 5], by decide⟩, .writePending] :=
  outputFifo_of_fits (accepting_accepts 1) (zeroes_zeroed 2) (by decide)

/-! ## Too much data -/

theorem writeBuffered_unlimited {q data : List UInt8} (hqueue : Queue false s.w q)
    (hlimit : s.w.maxBuffers ≤ 0) (hholds : Holds s.w data.length)
    (hlen : (data.length : Int) ≤ INT_MAX) :
    ∃ w, writeBuffered s data 0 = some ({ s with w }, (data.length : Int)) ∧
      Queue false w (q ++ data) ∧ w.maxBuffers ≤ 0 := by
  obtain ⟨w, n, hbuffered, -, hqueue', hmax, hall⟩ := ustreamWriteBuffered_spec s.stringData
    (Nat.lt_succ_self data.length) hqueue hholds (le_refl 0) (by omega)
  obtain rfl := hall hlimit
  rw [List.take_length] at hqueue'
  refine ⟨w, ?_, hqueue', hmax.trans_le hlimit⟩
  simp [writeBuffered, hbuffered]

/-- `data_bytes` cannot count another byte. -/
theorem ustreamWriteBuffered_overflow {q : List UInt8} (stringData : Bool) (fuel : Nat) (b : UInt8)
    (hqueue : Queue false l q) (hlimit : l.maxBuffers ≤ 0) (hfull : (q.length : Int) = INT_MAX) :
    ustreamWriteBuffered stringData (fuel + 1) l [b] 0 = none := by
  obtain ⟨full, rest, hs, hq⟩ := hqueue.shape
  have hcan := ustreamCanAlloc_of_unlimited hlimit
  have hne : [b] ≠ [] := List.cons_ne_nil _ _
  by_cases hmax : mustGrow l 1 = true ∧ INT_MAX < l.buffers + 1
  · have hprep := ustreamPrepareBuf_eq_none stringData false hs hmax.1 hcan hmax.2
    rw [ustreamWriteBuffered, if_neg hne, List.length_singleton, hprep]
    rfl
  obtain ⟨w, full', rest', hprep, hmade⟩ :=
    ustreamPrepareBuf_spec stringData false 1 hs hqueue.bufferLen fun hgrow _ =>
      Int.not_lt.mp fun hlt => hmax ⟨hgrow, hlt⟩
  have hroom : (!noRoom l 1) = true := by simp [noRoom, hcan]
  rw [hroom] at hprep hmade
  obtain ⟨x, xs, rfl, hlt⟩ := hmade.room rfl
  have hdataTail : w.dataTail = some x.1 := hmade.shape.dataTail
  have hcell : w.heap x.1 = some ⟨x.2, xs.head?.map Prod.fst⟩ := hmade.shape.cell rfl
  have hsize := x.2.size_le
  have hone : min (x.2.size - x.2.tail) 1 = 1 := by omega
  have hfit : x.2.tail + [b].length ≤ x.2.bytes.length := by
    rw [List.length_singleton]
    omega
  obtain ⟨c₁, c₂, hstore, hextend, -⟩ := hmade.shape.push [b] 1 hfit (Nat.le_refl 1) hlt
  have hwr : addInt 0 (1 : Nat) = some 1 := rfl
  have hbytes : addInt w.dataBytes (1 : Nat) = none := by
    apply if_neg
    rw [hmade.kept.dataBytes, hqueue.dataBytes, hfull]
    decide
  have htake : [b].take 1 = [b] := rfl
  rw [ustreamWriteBuffered, if_neg hne, List.length_singleton, hprep]
  simp only [hdataTail, hcell, hone, htake, hstore, hextend, hwr, hbytes, Bool.not_true,
    Bool.false_eq_true, if_false, Option.bind_eq_bind, Option.bind_some, Option.bind_none]

theorem accepting_zero_write (s : Stream Unit) (buf : List UInt8) (more : Bool) :
    s.write (accepting 0) buf more = (s, 0) := by
  simp [Stream.write, accepting]

theorem not_outputFifo_of_length {data byte : Data} {b : UInt8}
    (hdata : (data.1.length : Int) = INT_MAX) (hbyte : byte.1 = [b]) :
    ¬OutputFifo (accepting 0) (ustreamInitDefaults (zeroes 0))
      [.write data false, .write byte false] := by
  obtain ⟨s, hs⟩ : ∃ s, s = ustreamInitDefaults (zeroes 0) := ⟨_, rfl⟩
  have herr : s.writeError = false := by simp [hs, ustreamInitDefaults]
  have hbytes : s.w.dataBytes = 0 := by simp [hs, ustreamInitDefaults]
  have hlimit : s.w.maxBuffers ≤ 0 := by simp [hs, ustreamInitDefaults, zeroes, defaultSet]
  have hqueue : Queue false s.w [] := by
    rw [hs]
    exact Queue.empty rfl rfl rfl rfl rfl (by decide)
  have hholds : Holds s.w data.1.length := by
    left
    rw [hqueue.queued_eq]
    simp [hdata]
  obtain ⟨w, hfirst, hqueue', hlimit'⟩ :=
    writeBuffered_unlimited hqueue hlimit hholds (le_of_eq hdata)
  rw [List.nil_append] at hqueue'
  have hne : ¬(0 : Int) = (data.1.length : Int) := by
    rw [hdata]
    decide
  have hstep₁ : writeStep (accepting 0) s (.write data false)
      = some ({ s with w }, ⟨data, data.1.length⟩) := by
    simp only [writeStep, ustreamWrite, herr, hbytes, accepting_zero_write, hne, hfirst,
      Bool.false_eq_true, if_false, if_true, lt_self_iff_false, Int.toNat_zero, List.drop_zero,
      Option.map_some]
  have hnz : w.dataBytes ≠ 0 := by
    rw [hqueue'.dataBytes]
    exact Ne.symm hne
  have hsecond : writeBuffered { s with w } [b] 0 = none := by
    rw [writeBuffered, ustreamWriteBuffered_overflow _ _ b hqueue' hlimit' hdata]
    rfl
  have hstep₂ : writeStep (accepting 0) { s with w } (.write byte false) = none := by
    have hqueued := @ustreamWrite_of_queued _ (accepting 0) { s with w } herr hnz byte
      false
    rw [writeStep, hqueued, hbyte, hsecond]
    rfl
  rw [← hs]
  rintro ⟨s', trace, hrun, -⟩
  obtain ⟨s₁, e₁, rest, hfirst', hrest, -⟩ := run_cons_eq_some.mp hrun
  rw [hstep₁] at hfirst'
  cases hfirst'
  obtain ⟨s₂, e₂, rest', hsecond', -, -⟩ := run_cons_eq_some.mp hrest
  rw [hstep₂] at hsecond'
  cases hsecond'

/-- Two writes on a stream with the default settings, of `INT_MAX` bytes and of
one byte, neither of which the implementation accepts. -/
theorem not_outputFifo_overflow :
    ∃ data byte : Data, data.1 = List.replicate 2147483647 0 ∧ byte.1 = [0] ∧
      (accepting 0).Accepts ∧ Zeroed (zeroes 0) ∧
      ¬OutputFifo (accepting 0) (ustreamInitDefaults (zeroes 0))
        [.write data false, .write byte false] := by
  have hlen : ((List.replicate 2147483647 (0 : UInt8)).length : Int) = INT_MAX := by
    rw [List.length_replicate]
    rfl
  exact ⟨⟨List.replicate 2147483647 0, le_of_eq hlen⟩, ⟨[0], by decide⟩, rfl, rfl,
    accepting_accepts 0, zeroes_zeroed 0, not_outputFifo_of_length hlen rfl⟩

end Libubox.Ustream
