import Libubox.Lib.Machine
import Libubox.Ustream.Shape

/-!
# The input queue

The implementation of a stream reserves room and fills it, an application reads
and consumes, and settings change, in any order.  What was read and consumed,
followed by what is unread in `r`, is what was filled in (`InputFifo`).

Two things can go wrong.  The counters `data_bytes` and `buffers` are of type
`int`; and `ustream_reserve` calls `s->set_read_blocked` without a look whether
that callback, which is optional, is set (`Allowed`).
-/

namespace Libubox.Ustream

open Bytes Chain Machine

/-- The calls that concern the input, and changes of the settings.  A call of
`ustream_reserve` is followed by as much of `data` as there is room for; no more
is consumed than is pending. -/
inductive ReadOp where
  | fill (hint : Nat) (data : List UInt8)
  | read (buflen : Nat)
  | consume (len : Nat)
  | settings (bufferLen : { n : Nat // 0 < n }) (minBuffers maxBuffers : Int)

/-- The bytes a call filled in and those it took out. -/
structure Moved where
  filled : List UInt8
  out : List UInt8

variable {σ : Type}

/-- The implementation stores bytes at the pointer it got. -/
def storeAt (l : BufList) (ptr : Option Nat) (data : List UInt8) : Option BufList :=
  match ptr with
  | none => some l
  | some buf => do
      let b ← l.heap buf
      let c ← b.val.store data
      pure (l.put buf (some { b with val := c }))

/-- One call. -/
def readStep (s : Stream σ) : ReadOp → Option (Stream σ × Moved)
  | .fill hint data => do
      let (s, ptr, maxlen) ← ustreamReserve s hint
      let data := data.take maxlen
      let r ← storeAt s.r ptr data
      let s ← ustreamFillRead { s with r } data.length
      pure (s, ⟨data, []⟩)
  | .read buflen => (ustreamRead s buflen).map fun q => (q.1, ⟨[], q.2⟩)
  | .consume len =>
      let len := min len s.r.dataBytes.toNat
      (ustreamConsume s len).map fun s' => (s', ⟨[], (queued s.r).take len⟩)
  | .settings bufferLen minBuffers maxBuffers =>
      some ({ s with r := { s.r with bufferLen, minBuffers, maxBuffers } }, ⟨[], []⟩)

/-- The bytes filled in, in order. -/
def filledBy (trace : List Moved) : List UInt8 := trace.flatMap Moved.filled

/-- The bytes read and consumed, in order. -/
def outOf (trace : List Moved) : List UInt8 := trace.flatMap Moved.out

/-- **The claim.** -/
def InputFifo (s₀ : Stream σ) (ops : List ReadOp) : Prop :=
  ∃ s trace, run readStep s₀ ops = some (s, trace) ∧
    outOf trace ++ queued s.r = filledBy trace ∧
    (∃ data buflen, ustreamGetReadBuf s = some (data, buflen) ∧
      (data = none → queued s.r = [])) ∧
    (s.stringData = true → ∀ x ∈ s.r.bufs, x.2.bytes[x.2.tail]? = some 0)

/-- `ustream_reserve` finds room or `set_read_blocked` is set, and the list is
not made to hold more than `INT_MAX` bytes. -/
def Allowed (s : Stream σ) : ReadOp → Prop
  | .fill hint data =>
      (s.setReadBlocked = true ∨ noRoom s.r hint = false) ∧ Holds s.r (max data.length 1)
  | .read _ => True
  | .consume _ => True
  | .settings .. => True

instance (s : Stream σ) : ∀ op, Decidable (Allowed s op)
  | .fill hint data =>
      inferInstanceAs (Decidable
        ((s.setReadBlocked = true ∨ noRoom s.r hint = false) ∧ Holds s.r (max data.length 1)))
  | .read _ => isTrue trivial
  | .consume _ => isTrue trivial
  | .settings .. => isTrue trivial

/-! ## Taking out -/

variable {string : Bool} {l : BufList} {q : List UInt8}

theorem consumeLoop_spec {fuel n : Nat} (hfuel : n < fuel) (h : Content string l q) (hpos : 0 < n)
    (hn : n ≤ q.length) :
    ∃ l', consumeLoop fuel l l.head n = some l' ∧ Content string l' (q.drop n) ∧ Kept l l' := by
  induction fuel generalizing l q n with
  | zero => omega
  | succ fuel ih =>
      have hne : q ≠ [] := List.ne_nil_of_length_pos (by omega)
      obtain ⟨buf, b, hfirst⟩ := h.first hne
      have hlen : b.val.tail - b.val.data = b.val.content.length := b.val.content_length.symm
      have hdata := List.length_pos_of_ne_nil hfirst.content
      by_cases hshort : n < b.val.content.length
      · obtain ⟨c, hadvance, hrest⟩ := hfirst.advance n hshort
        refine ⟨_, ?_, hrest, ⟨rfl, rfl, rfl, rfl⟩⟩
        simp [consumeLoop, hfirst.head, hfirst.heap, hlen, hshort, hadvance, -Chunk.content_length]
      · obtain ⟨l', hfree, hkept, hrest, hnext⟩ := hfirst.free
        by_cases hlast : n - b.val.content.length = 0
        · have hall : n = b.val.content.length := by omega
          refine ⟨l', ?_, hall ▸ hrest, hkept⟩
          simp [consumeLoop, hfirst.head, hfirst.heap, hlen, hshort, hfree, hlast,
            -Chunk.content_length]
        · have hdrop : (q.drop b.val.content.length).length
              = q.length - b.val.content.length := List.length_drop
          have hhead : b.next = l'.head := by
            rcases hnext with ⟨-, hnil⟩ | hhead
            · rw [hnil, List.length_nil] at hdrop
              omega
            · exact hhead
          obtain ⟨l'', hloop, hrest', hkept'⟩ := ih (n := n - b.val.content.length) (by omega)
            hrest (by omega) (by omega)
          refine ⟨l'', ?_, ?_, hkept.trans hkept'⟩
          · rw [← hhead] at hloop
            simp [consumeLoop, hfirst.head, hfirst.heap, hlen, hshort, hfree, hlast, hloop,
              -Chunk.content_length]
          · rw [List.drop_drop] at hrest'
            have hsum : b.val.content.length + (n - b.val.content.length) = n := by omega
            rw [hsum] at hrest'
            exact hrest'

/-- The unread bytes of a stream are `q`, and nothing was blocked unless the
callback for it is set. -/
structure Unread (s : Stream σ) (q : List UInt8) : Prop where
  queue : Queue s.stringData s.r q
  callback : s.setReadBlocked = true ∨ s.readBlocked = 0

variable {s : Stream σ}

theorem setReadBlockedTo_spec {val : BitVec 8} (h : s.setReadBlocked = true ∨ s.readBlocked = val) :
    setReadBlockedTo s val = some { s with readBlocked := val } := by
  apply if_neg
  rcases h with h | h <;> simp [h]

theorem ustreamConsume_spec {n : Nat} (h : Unread s q) (hn : n ≤ q.length) :
    ∃ s', ustreamConsume s n = some s' ∧ Unread s' (q.drop n) ∧ s'.stringData = s.stringData := by
  rcases Nat.eq_zero_or_pos n with rfl | hpos
  · exact ⟨s, rfl, h, rfl⟩
  have hbytes := h.queue.dataBytes
  have hsmall := h.queue.small
  have hsub : addInt s.r.dataBytes (-n) = some (s.r.dataBytes + -n) := by
    apply addInt_of_le <;> omega
  have hneg : ¬s.r.dataBytes + -(n : Int) < 0 := by omega
  obtain ⟨r, hloop, hcontent, hkept⟩ := consumeLoop_spec (Nat.lt_succ_self n)
    (h.queue.toContent.setDataBytes (s.r.dataBytes + -n)) hpos hn
  have hclear : (0 : BitVec 8) &&& ~~~READ_BLOCKED_FULL = 0 := rfl
  have hval : s.setReadBlocked = true ∨ s.readBlocked = s.readBlocked &&& ~~~READ_BLOCKED_FULL := by
    refine h.callback.imp id fun hzero => ?_
    rw [hzero, hclear]
  have hdrop : (q.drop n).length = q.length - n := List.length_drop
  refine ⟨{ s with r, readBlocked := s.readBlocked &&& ~~~READ_BLOCKED_FULL }, ?_,
    ⟨⟨hcontent, hkept.dataBytes.trans ?_, by omega⟩, ?_⟩, rfl⟩
  · have hnz : n ≠ 0 := by omega
    have hblock := setReadBlockedTo_spec (s := { s with r }) hval
    simp only [ustreamConsume, hnz, hsub, hneg, if_false, Option.bind_eq_bind, Option.bind_some]
    have hhead : s.r.head = (s.r.setDataBytes (s.r.dataBytes + -n)).head := rfl
    rw [hhead, hloop]
    exact hblock
  · simp only [BufList.setDataBytes]
    omega
  · refine h.callback.imp id fun hzero => ?_
    simp only [hzero, hclear]

/-- `ustream_get_read_buf` returns the start of the unread bytes. -/
theorem ustreamGetReadBuf_spec (h : Content string s.r q) :
    (q = [] ∧ ∃ buflen, ustreamGetReadBuf s = some (none, buflen)) ∨
    (∃ data, data <+: q ∧ data ≠ [] ∧ ustreamGetReadBuf s = some (some data, data.length)) := by
  by_cases hnil : q = []
  · left
    refine ⟨hnil, ?_⟩
    obtain ⟨full, rest, hs, hq⟩ := h.shape
    rcases hhead : full ++ rest with _ | ⟨x, xs⟩
    · have hnone : s.r.head = none := by
        rw [hs.chain.head, hhead]
        rfl
      exact ⟨0, by simp [ustreamGetReadBuf, hnone]⟩
    · have hfirst : s.r.head = some x.1 := by
        rw [hs.chain.head, hhead]
        rfl
      have hcell : s.r.heap x.1 = some ⟨x.2, xs.head?.map Prod.fst⟩ :=
        hs.cell (hhead.trans (List.nil_append _).symm)
      have hle : x.2.tail ≤ x.2.data := by
        rw [hhead, hnil] at hq
        have hempty : x.2.content = [] := (List.append_eq_nil_iff.mp hq).1
        have hlen := x.2.content_length
        rw [hempty, List.length_nil] at hlen
        omega
      exact ⟨x.2.tail - x.2.data, by simp [ustreamGetReadBuf, hfirst, hcell, hle]⟩
  · right
    obtain ⟨buf, b, hfirst⟩ := h.first hnil
    have hlt : b.val.data < b.val.tail := by
      have hpos := List.length_pos_of_ne_nil hfirst.content
      rw [Chunk.content_length] at hpos
      omega
    refine ⟨b.val.content, hfirst.start, hfirst.content, ?_⟩
    simp [ustreamGetReadBuf, hfirst.head, hfirst.heap, hlt]

theorem readLoop_spec {fuel buflen : Nat} {buf : List UInt8} (hfuel : buflen - buf.length < fuel)
    (h : Unread s q) :
    ∃ s', readLoop fuel s buflen buf = some (s', buf ++ q.take (buflen - buf.length)) ∧
      Unread s' (q.drop (buflen - buf.length)) ∧ s'.stringData = s.stringData := by
  induction fuel generalizing s q buf with
  | zero => omega
  | succ fuel ih =>
      rcases ustreamGetReadBuf_spec h.queue.toContent with ⟨rfl, n, hget⟩ | ⟨data, hdata, hne, hget⟩
      · refine ⟨s, ?_, ?_, rfl⟩
        · simp [readLoop, hget]
        · simpa using h
      obtain ⟨k, hk⟩ : ∃ k, k = min data.length (buflen - buf.length) := ⟨_, rfl⟩
      have hlen := hdata.length_le
      have hpos := List.length_pos_of_ne_nil hne
      obtain ⟨s₁, hconsume, hs₁, hstring⟩ := ustreamConsume_spec (n := k) h (by omega)
      have htake : data.take k = q.take k := by
        obtain ⟨rest, rfl⟩ := hdata
        rw [List.take_append_of_le_length (by omega)]
      have hbuf : (buf ++ q.take k).length = buf.length + k := by
        rw [List.length_append, List.length_take]
        omega
      by_cases hmore : (buf ++ q.take k).length < buflen
      · have hless : buflen - (buf ++ q.take k).length < fuel := by omega
        obtain ⟨s', hloop, hs', hstring'⟩ := ih hless hs₁
        have hsum : buflen - buf.length = k + (buflen - (buf ++ q.take k).length) := by omega
        refine ⟨s', ?_, ?_, hstring'.trans hstring⟩
        · simp only [readLoop, hget, ← hk, hconsume, htake, hmore, if_true, Option.bind_eq_bind,
            Option.bind_some]
          rw [hloop, List.append_assoc, ← List.take_add, ← hsum]
        · rw [List.drop_drop, ← hsum] at hs'
          exact hs'
      · have hlast : buflen - buf.length = k := by omega
        rw [hlast]
        refine ⟨s₁, ?_, hs₁, hstring⟩
        simp only [readLoop, hget, ← hk, hconsume, htake, hmore, if_false, Option.bind_eq_bind,
          Option.bind_some]
        rfl

/-! ## Filling in -/

variable {full xs : List (Nat × Chunk)} {x : Nat × Chunk}

/-- `ustream_fill_read` after `bs` was stored at `data_tail`. -/
theorem ustreamFillRead_spec {c : Chunk} (bs : List UInt8) (h : Unread s q)
    (hs : Shape s.stringData s.r full (x :: xs)) (hq : contents (full ++ x :: xs) = q)
    (hdata : c.data = x.2.data) (htail : c.tail = x.2.tail) (hsize : c.size = x.2.size)
    (hbytes : c.bytes = overwrite x.2.bytes x.2.tail bs) (hfit : x.2.tail + bs.length ≤ x.2.size)
    (hmax : s.r.dataBytes + bs.length ≤ INT_MAX) :
    ∃ s', ustreamFillRead
        { s with r := s.r.put x.1 (some ⟨c, xs.head?.map Prod.fst⟩) } bs.length = some s' ∧
      Unread s' (q ++ bs) ∧ s'.stringData = s.stringData := by
  have hmem := x.2.size_le
  have hle := x.2.data_le
  have hcount := h.queue.dataBytes
  have hadd : addInt s.r.dataBytes bs.length = some (s.r.dataBytes + bs.length) := by
    apply addInt_of_le <;> omega
  obtain ⟨c₁, hextend, hdata₁, htail₁, hsize₁, hbytes₁⟩ :=
    Chunk.extend_spec (c := c) (n := bs.length) (by omega)
  have hcontent₁ : c₁.content = x.2.content ++ bs := by
    have hpush := @Chunk.content_of_store x.2 c₁ _ _ (Nat.le_refl bs.length)
      (hdata₁.trans hdata) (by omega) (hbytes₁.trans hbytes)
    rwa [List.take_length] at hpush
  have hlen : c.bytes.length = x.2.bytes.length := by
    rw [hbytes, overwrite_length (by omega)]
  obtain ⟨c₂, hfix, hcontent₂, hdata₂, htail₂, hsize₂, hterm⟩ :=
    Chunk.fixup_spec (c := c₁) s.stringData (by
      intro hstring
      have hx := (hs.terminated x (by simp) hstring).1
      rw [hbytes₁, hlen]
      omega)
  have hused : c₂.tail = 0 ∨ c₂.data < c₂.tail := by
    rcases hs.used x (by simp) with hzero | hlt <;> omega
  have hs₂ := hs.set_cur hused hterm
  have hspare : contents xs = [] := contents_eq_nil hs.spare
  have hdataTail : s.r.dataTail = some x.1 := hs.dataTail
  have hmin : min bs.length (c.size - c.tail) = bs.length := by omega
  refine ⟨{ s with
    r := { (s.r.put x.1 (some ⟨c₂, xs.head?.map Prod.fst⟩)).setDataBytes
      (s.r.dataBytes + bs.length) with dataTail := some x.1 } }, ?_, ⟨⟨⟨⟨full, (x.1, c₂) :: xs,
      ?_, ?_⟩, h.queue.bufferLen, h.queue.buffers⟩, ?_, ?_⟩, h.callback⟩, rfl⟩
  · simp [ustreamFillRead, BufList.put, BufList.setDataBytes, hadd, fillLoop, hdataTail, hmin,
      hextend, hfix]
  · exact { hs₂ with dataTail := rfl }
  · have hold : contents (x :: xs) = x.2.content ++ contents xs := rfl
    have hnew : contents ((x.1, c₂) :: xs) = c₂.content ++ contents xs := rfl
    rw [← hq, contents_append, contents_append, hold, hnew, hspare, hcontent₂, hcontent₁]
    simp
  · rw [List.length_append, Nat.cast_add, ← hcount]
    rfl
  · rw [List.length_append]
    omega

/-- A list that is full has a buffer. -/
theorem Shape.exists_cur {rest : List (Nat × Chunk)} {len : Nat} (hs : Shape string l full rest)
    (hroom : noRoom l len = true) : ∃ x xs, rest = x :: xs := by
  apply List.exists_cons_of_ne_nil
  intro hrest
  have hfull := hs.nonempty hrest
  have hbuffers := hs.buffers
  simp only [noRoom, ustreamCanAlloc, Bool.and_eq_true, Bool.not_eq_true', Bool.or_eq_false_iff,
    decide_eq_false_iff_not] at hroom
  rw [hrest, hfull] at hbuffers
  simp only [List.append_nil, List.length_nil] at hbuffers
  omega

/-- There is no room: `*maxlen` is zero, and nothing is filled in. -/
theorem fill_of_noRoom {hint : Nat} (data : List UInt8) (h : Unread s q)
    (hroom : noRoom s.r hint = true) (hcb : s.setReadBlocked = true) :
    ∃ s', readStep s (.fill hint data) = some (s', ⟨[], []⟩) ∧ Unread s' q ∧
      s'.stringData = s.stringData := by
  obtain ⟨full, rest, hs, hq⟩ := h.queue.shape
  obtain ⟨x, xs, rfl⟩ := hs.exists_cur hroom
  have hprep := ustreamPrepareBuf_of_noRoom s.stringData true hs hroom
  obtain ⟨s₁, hs₁⟩ : ∃ s₁, s₁ = { s with readBlocked := s.readBlocked ||| READ_BLOCKED_FULL } :=
    ⟨_, rfl⟩
  have hblock : setReadBlockedTo s (s.readBlocked ||| READ_BLOCKED_FULL) = some s₁ := by
    rw [hs₁]
    exact setReadBlockedTo_spec (.inl hcb)
  have hreserve : ustreamReserve s hint = some (s₁, none, 0) := by
    simp only [ustreamReserve, hprep, Option.bind_eq_bind, Option.bind_some, Bool.false_eq_true,
      if_false, hblock]
    rfl
  have hcell : s.r.heap x.1 = some ⟨x.2, xs.head?.map Prod.fst⟩ := hs.cell rfl
  have hput : s.r.put x.1 (some ⟨x.2, xs.head?.map Prod.fst⟩) = s.r := by
    simp [BufList.put, ← hcell]
  have h₁ : Unread s₁ q := by
    rw [hs₁]
    exact ⟨h.queue, .inl hcb⟩
  have hr : s₁.r = s.r := by rw [hs₁]
  have hstring : s₁.stringData = s.stringData := by rw [hs₁]
  have hsmall := h.queue.small
  have hcount := h.queue.dataBytes
  obtain ⟨s', hfill, hs', hstring'⟩ := ustreamFillRead_spec (c := x.2) [] h₁
    (by rw [hr, hstring]; exact hs) hq rfl rfl rfl (by simp [overwrite]) x.2.tail_le (by
      rw [hr, hcount]
      simpa using hsmall)
  rw [hr, hput, ← hr] at hfill
  refine ⟨s', ?_, by simpa using hs', hstring'.trans hstring⟩
  have hsame : ({ s₁ with r := s₁.r } : Stream σ) = s₁ := rfl
  simp only [readStep, hreserve, storeAt, Option.bind_eq_bind, Option.bind_some, List.take_zero]
  rw [hsame] at hfill ⊢
  rw [hfill]
  rfl

/-- There is room, and it is filled. -/
theorem fill_of_room {hint : Nat} {data : List UInt8} (h : Unread s q)
    (hroom : noRoom s.r hint = false) (hholds : Holds s.r (max data.length 1)) :
    ∃ s' k, readStep s (.fill hint data) = some (s', ⟨data.take k, []⟩) ∧
      Unread s' (q ++ data.take k) ∧ s'.stringData = s.stringData := by
  obtain ⟨l₁, ok, hprep, h₁, hholds₁, -, -, hok, hshape⟩ :=
    h.queue.prepare s.stringData true hint hholds (by omega)
  obtain rfl : ok = true := by rw [hok, hroom]; rfl
  obtain ⟨full, x, xs, hs, hq, hlt⟩ := hshape rfl
  obtain ⟨k, hk⟩ : ∃ k, k = x.2.size - x.2.tail := ⟨_, rfl⟩
  have hdataTail : l₁.dataTail = some x.1 := hs.dataTail
  have hcell : l₁.heap x.1 = some ⟨x.2, xs.head?.map Prod.fst⟩ := hs.cell rfl
  have hsize := x.2.size_le
  have htake : (data.take k).length ≤ k := List.length_take_le k data
  have htake' : (data.take k).length ≤ data.length := List.length_take_le' k data
  obtain ⟨c, hstore, hcdata, hctail, hcsize, hcbytes⟩ :=
    Chunk.store_spec (show x.2.tail + (data.take k).length ≤ x.2.bytes.length by omega)
  have hmax : l₁.dataBytes + (data.take k).length ≤ INT_MAX := by
    have hcount := h₁.dataBytes
    have hfull := contents_length_le full
    have hxs := contents_length_le xs
    have hlen : q.length = (contents full).length + (x.2.tail - x.2.data + (contents xs).length) := by
      rw [← hq, contents_append]
      simp [contents]
    rw [Holds, h₁.queued_eq, hs.bound_eq] at hholds₁
    simp only [List.map_append, List.map_cons, List.sum_append, List.sum_cons] at hholds₁
    have htail := x.2.tail_le
    rcases hholds₁ with hlow | ⟨-, hhigh⟩ <;> omega
  have hunread : Unread { s with r := l₁ } q := ⟨h₁, h.callback⟩
  obtain ⟨s', hfill, hs', hstring⟩ := ustreamFillRead_spec (data.take k) hunread hs hq
    hcdata hctail hcsize hcbytes (by omega) hmax
  have hreserve : ustreamReserve s hint = some ({ s with r := l₁ }, some x.1, k) := by
    simp only [ustreamReserve, hprep, hdataTail, hcell, if_true, Option.bind_eq_bind,
      Option.bind_some, hk]
    rfl
  have hstoreAt : storeAt l₁ (some x.1) (data.take k)
      = some (l₁.put x.1 (some ⟨c, xs.head?.map Prod.fst⟩)) := by
    simp [storeAt, hcell, hstore]
  have hfill' : ustreamFillRead { s with r := l₁.put x.1 (some ⟨c, xs.head?.map Prod.fst⟩) }
      (data.take k).length = some s' := hfill
  refine ⟨s', k, ?_, hs', hstring⟩
  simp only [readStep, hreserve, hstoreAt, hfill', Option.bind_eq_bind, Option.bind_some]
  rfl

/-! ## Runs -/

/-- **The step lemma.** -/
theorem readStep_spec (h : Unread s q) {op : ReadOp} (hallow : Allowed s op) :
    ∃ s' e q', readStep s op = some (s', e) ∧ Unread s' q' ∧ q ++ e.filled = e.out ++ q' ∧
      s'.stringData = s.stringData := by
  cases op with
  | fill hint data =>
      obtain ⟨hcb, hholds⟩ := hallow
      by_cases hroom : noRoom s.r hint = true
      · have hset : s.setReadBlocked = true := hcb.resolve_right (by simp [hroom])
        obtain ⟨s', hstep, hs', hstring⟩ := fill_of_noRoom data h hroom hset
        exact ⟨s', ⟨[], []⟩, q, hstep, hs', List.append_nil q, hstring⟩
      · obtain ⟨s', k, hstep, hs', hstring⟩ :=
          fill_of_room h (Bool.not_eq_true _ ▸ hroom) hholds
        exact ⟨s', ⟨data.take k, []⟩, q ++ data.take k, hstep, hs', rfl, hstring⟩
  | read buflen =>
      obtain ⟨s', hread, hs', hstring⟩ := @readLoop_spec _ _ _ _ _ [] (Nat.lt_succ_self buflen) h
      refine ⟨s', ⟨[], q.take buflen⟩, q.drop buflen, ?_, hs', ?_, hstring⟩
      · simpa [readStep, ustreamRead] using hread
      · simp
  | consume len =>
      obtain ⟨n, hn⟩ : ∃ n, n = min len s.r.dataBytes.toNat := ⟨_, rfl⟩
      have hcount := h.queue.dataBytes
      obtain ⟨s', hconsume, hs', hstring⟩ := ustreamConsume_spec (n := n) h (by omega)
      refine ⟨s', ⟨[], q.take n⟩, q.drop n, ?_, hs', by simp, hstring⟩
      simp [readStep, ← hn, hconsume, h.queue.queued_eq]
  | settings bufferLen minBuffers maxBuffers =>
      obtain ⟨full, rest, hs, hq⟩ := h.queue.shape
      refine ⟨_, ⟨[], []⟩, q, rfl, ⟨⟨⟨⟨full, rest, { hs with }, hq⟩, bufferLen.2,
        h.queue.buffers⟩, h.queue.dataBytes, h.queue.small⟩, h.callback⟩, by simp, rfl⟩

theorem inputFifo_of_allowed (hzero : Zeroed s) {ops : List ReadOp}
    (hallow : Along readStep Allowed (ustreamInitDefaults s) ops) :
    InputFifo (ustreamInitDefaults s) ops := by
  have hinit : ∃ q, Unread (ustreamInitDefaults s) q ∧ outOf [] ++ q = filledBy [] ∧
      (ustreamInitDefaults s).stringData = s.stringData := by
    refine ⟨[], ⟨Queue.empty hzero.r.1 hzero.r.2.1 hzero.r.2.2 rfl rfl ?_, .inr rfl⟩, rfl, rfl⟩
    simp only [ustreamInitDefaults]
    split <;> omega
  have hstep : ∀ (s₁ : Stream σ) past op,
      (∃ q, Unread s₁ q ∧ outOf past ++ q = filledBy past ∧ s₁.stringData = s.stringData) →
      Allowed s₁ op → ∃ s' e, readStep s₁ op = some (s', e) ∧
        ∃ q, Unread s' q ∧ outOf (past ++ [e]) ++ q = filledBy (past ++ [e]) ∧
          s'.stringData = s.stringData := by
    rintro s₁ past op ⟨q, hs₁, hpast, hstring⟩ hop
    obtain ⟨s', e, q', hstep, hs', hmoved, hstring'⟩ := readStep_spec hs₁ hop
    refine ⟨s', e, hstep, q', hs', ?_, hstring'.trans hstring⟩
    calc outOf (past ++ [e]) ++ q'
        = outOf past ++ (e.out ++ q') := by simp [outOf]
      _ = filledBy past ++ e.filled := by rw [← hmoved, ← List.append_assoc, hpast]
      _ = filledBy (past ++ [e]) := by simp [filledBy]
  obtain ⟨s', trace, hrun, q, hs', hmoved, -⟩ := exists_run hstep hinit hallow
  refine ⟨s', trace, hrun, ?_, ?_, ?_⟩
  · rw [hs'.queue.queued_eq]
    exact hmoved
  · rw [hs'.queue.queued_eq]
    rcases ustreamGetReadBuf_spec hs'.queue.toContent with ⟨hq, n, hget⟩ | ⟨data, -, -, hget⟩
    · exact ⟨none, n, hget, fun _ => hq⟩
    · exact ⟨some data, data.length, hget, fun h => nomatch h⟩
  · intro hstring x hx
    obtain ⟨full, rest, hs, -⟩ := hs'.queue.shape
    rw [hs.bufs] at hx
    exact (hs.terminated x hx hstring).2

/-- Two bytes are filled in, one is read, one more is filled in behind the other
after it was moved, and both are consumed. -/
theorem inputFifo_of_allowed_moved :
    InputFifo (ustreamInitDefaults (zeroes 2))
      [.fill 1 [1, 2], .read 1, .fill 1 [3], .consume 5] :=
  inputFifo_of_allowed (zeroes_zeroed 2) (by decide)

/-- `set_read_blocked` is not set, and room is reserved in a full list. -/
theorem not_inputFifo_full :
    Zeroed (zeroes 2) ∧
      ¬InputFifo (ustreamInitDefaults (zeroes 2)) [.fill 1 [1, 2], .fill 1 [3]] := by
  refine ⟨zeroes_zeroed 2, ?_⟩
  rintro ⟨s, trace, hrun, -⟩
  have hnone : run readStep (ustreamInitDefaults (zeroes 2)) [.fill 1 [1, 2], .fill 1 [3]] = none :=
    rfl
  rw [hnone] at hrun
  cases hrun

end Libubox.Ustream
