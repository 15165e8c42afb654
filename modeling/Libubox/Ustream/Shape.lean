import Libubox.Ustream.Stream

/-!
# Well-formed buffer lists

`Shape` is the invariant of a buffer list: full buffers in front of
`data_tail`, empty ones behind it.  Every function over a list of this shape
returns one, and does to the bytes in it what a queue does:

* `ustreamFreeBuf_spec` takes the first buffer away, or puts it back empty at
  the end;
* `ustreamPrepareBuf_spec` makes room at `data_tail` and keeps the bytes.
-/

namespace Libubox.Ustream

open Bytes Chain

/-! ## Buffers -/

theorem addInt_of_le {a b : Int} (hlo : 0 ≤ a + b) (hhi : a + b ≤ INT_MAX) :
    addInt a b = some (a + b) := by
  have hmin : -INT_MAX - 1 ≤ 0 := by decide
  exact if_pos ⟨hmin.trans hlo, hhi⟩

namespace Chunk

variable {c : Chunk}

@[simp] theorem content_length (c : Chunk) : c.content.length = c.tail - c.data := by
  have htail := c.tail_le
  have hsize := c.size_le
  rw [content, List.length_take, List.length_drop]
  omega

/-- The memory of a buffer is what was consumed, the data and the room. -/
theorem exists_parts (c : Chunk) : ∃ gone room, c.bytes = gone ++ c.content ++ room ∧
    gone.length = c.data := by
  have hdata := c.data_le
  have htail := c.tail_le
  have hsize := c.size_le
  refine ⟨c.bytes.take c.data, (c.bytes.drop c.data).drop (c.tail - c.data), ?_, ?_⟩
  · rw [content, List.append_assoc, List.take_append_drop, List.take_append_drop]
  · rw [List.length_take]
    omega

theorem content_of_parts {gone data room : List UInt8} (hbytes : c.bytes = gone ++ data ++ room)
    (hgone : gone.length = c.data) (hdata : c.data + data.length = c.tail) : c.content = data := by
  have hlen : c.tail - c.data = data.length := by omega
  rw [content, hbytes, hlen, ← hgone, List.append_assoc, List.drop_left, List.take_left]

theorem store_spec {bs : List UInt8} (h : c.tail + bs.length ≤ c.bytes.length) :
    ∃ c', c.store bs = some c' ∧ c'.data = c.data ∧ c'.tail = c.tail ∧ c'.size = c.size ∧
      c'.bytes = overwrite c.bytes c.tail bs :=
  ⟨_, dif_pos h, rfl, rfl, rfl, rfl⟩

theorem extend_spec {n : Nat} (h : c.tail + n ≤ c.size) :
    ∃ c', c.extend n = some c' ∧ c'.data = c.data ∧ c'.tail = c.tail + n ∧ c'.size = c.size ∧
      c'.bytes = c.bytes :=
  ⟨_, dif_pos h, rfl, rfl, rfl, rfl⟩

/-- The memory behind the data may be overwritten. -/
theorem content_of_store {c' : Chunk} {bs : List UInt8} {n : Nat} (hn : n ≤ bs.length)
    (hdata : c'.data = c.data) (htail : c'.tail = c.tail + n)
    (hbytes : c'.bytes = overwrite c.bytes c.tail bs) :
    c'.content = c.content ++ bs.take n := by
  obtain ⟨gone, room, hparts, hgone⟩ := c.exists_parts
  have hle := c.data_le
  have hlen : (gone ++ c.content).length = c.tail := by
    rw [List.length_append, content_length]
    omega
  have hmem : c'.bytes
      = gone ++ (c.content ++ bs.take n) ++ (bs.drop n ++ room.drop bs.length) := by
    rw [hbytes, overwrite, hparts, ← hlen, List.take_left, ← List.drop_drop, List.drop_left]
    simp only [List.append_assoc]
    rw [← List.append_assoc (bs.take n), List.take_append_drop]
  refine content_of_parts hmem (hgone.trans hdata.symm) ?_
  rw [List.length_append, List.length_take, Nat.min_eq_left hn, content_length]
  omega

/-- Bytes are stored at `tail` and some of them become data. -/
theorem push_spec {bs : List UInt8} {n : Nat} (hbs : c.tail + bs.length ≤ c.bytes.length)
    (hn : n ≤ bs.length) (hsize : c.tail + n ≤ c.size) :
    ∃ c₁ c₂, c.store bs = some c₁ ∧ c₁.extend n = some c₂ ∧ c₁.content = c.content ∧
      c₂.content = c.content ++ bs.take n ∧ c₂.data = c.data ∧ c₂.tail = c.tail + n ∧
      c₂.size = c.size := by
  obtain ⟨c₁, hstore, hdata₁, htail₁, hsize₁, hbytes₁⟩ := store_spec hbs
  obtain ⟨c₂, hextend, hdata₂, htail₂, hsize₂, hbytes₂⟩ :=
    extend_spec (c := c₁) (n := n) (by omega)
  have hzero : c₁.content = c.content ++ bs.take 0 :=
    content_of_store (Nat.zero_le _) hdata₁ htail₁ hbytes₁
  refine ⟨c₁, c₂, hstore, hextend, by simpa using hzero, ?_, by omega, by omega, by omega⟩
  exact content_of_store hn (hdata₂.trans hdata₁) (by omega) (hbytes₂.trans hbytes₁)

theorem advance_spec {n : Nat} (h : c.data + n ≤ c.tail) :
    ∃ c', c.advance n = some c' ∧ c'.content = c.content.drop n ∧ c'.data = c.data + n ∧
      c'.tail = c.tail ∧ c'.size = c.size ∧ c'.bytes = c.bytes := by
  refine ⟨_, dif_pos h, ?_, rfl, rfl, rfl, rfl⟩
  rw [content, content, List.drop_take, List.drop_drop, Nat.sub_add_eq]

@[simp] theorem content_move (c : Chunk) : c.move.content = c.content := by
  have hmem : c.move.bytes = [] ++ c.content ++ c.bytes.drop c.content.length := by
    simp [move, overwrite]
  refine content_of_parts hmem rfl ?_
  simp [move]

/-- The byte behind the data is zero, in a list that holds strings. -/
def Terminated (string : Bool) (c : Chunk) : Prop :=
  string = true → c.size < c.bytes.length ∧ c.bytes[c.tail]? = some 0

theorem length_bytes_move (c : Chunk) : c.move.bytes.length = c.bytes.length := by
  have htail := c.tail_le
  have hsize := c.size_le
  apply overwrite_length
  rw [content_length]
  omega

theorem fixup_spec (string : Bool) (hroom : string = true → c.size < c.bytes.length) :
    ∃ c', ustreamFixupString string c = some c' ∧ c'.content = c.content ∧ c'.data = c.data ∧
      c'.tail = c.tail ∧ c'.size = c.size ∧ c'.Terminated string := by
  cases string with
  | false => exact ⟨c, rfl, rfl, rfl, rfl, rfl, fun h => nomatch h⟩
  | true =>
      have hlt := hroom rfl
      have htail := c.tail_le
      have hfit : c.tail + [(0 : UInt8)].length ≤ c.bytes.length := by
        simp
        omega
      obtain ⟨c', hstore, hdata, htail', hsize, hbytes⟩ := store_spec hfit
      have hzero : c'.content = c.content ++ [(0 : UInt8)].take 0 :=
        content_of_store (Nat.zero_le _) hdata htail' hbytes
      refine ⟨c', hstore, by simpa using hzero, hdata, htail', hsize, fun _ => ⟨?_, ?_⟩⟩
      · rw [hbytes, overwrite_length hfit]
        omega
      · rw [hbytes, getElem?_overwrite hfit, htail']
        simp

end Chunk

/-- A buffer as `ustream_init_buf` leaves it. -/
structure Blank (c : Chunk) : Prop where
  data : c.data = 0
  tail : c.tail = 0
  first : c.bytes[0]? = some 0

theorem Blank.content {c : Chunk} (h : Blank c) : c.content = [] := by
  apply List.eq_nil_of_length_eq_zero
  rw [Chunk.content_length, h.tail, Nat.zero_sub]

theorem ustreamInitBuf_spec {bytes : List UInt8} {len : Nat} (hpos : 0 < len)
    (hle : len ≤ bytes.length) : ∃ c, ustreamInitBuf bytes len = some c ∧ Blank c ∧
      c.size = len ∧ c.bytes.length = bytes.length := by
  have hfit : 0 + [(0 : UInt8)].length ≤ bytes.length := by
    simp
    omega
  refine ⟨_, dif_pos ⟨hpos, hle⟩, ⟨rfl, rfl, ?_⟩, rfl, overwrite_length hfit⟩
  rw [getElem?_overwrite hfit]
  simp

/-! ## Lists -/

/-- The invariant of a list whose buffers are `full ++ rest`: `data_tail` is
the first of `rest`.  With `string`, every buffer ends in a zero byte. -/
structure Shape (string : Bool) (l : BufList) (full rest : List (Nat × Chunk)) : Prop where
  chain : Seg l.heap l.head (full ++ rest) none
  nodup : ((full ++ rest).map Prod.fst).Nodup
  fresh : ∀ a ∈ (full ++ rest).map Prod.fst, a < l.fresh
  tail : l.tail = (full ++ rest).getLast?.map Prod.fst
  dataTail : l.dataTail = rest.head?.map Prod.fst
  nonempty : rest = [] → full = []
  buffers : l.buffers = (full ++ rest).length
  full_tail : ∀ x ∈ full, x.2.tail = x.2.size
  used : ∀ x ∈ full ++ rest, x.2.tail = 0 ∨ x.2.data < x.2.tail
  spare : ∀ x ∈ rest.tail, x.2.tail = 0
  terminated : ∀ x ∈ full ++ rest, x.2.Terminated string

/-- The settings and `data_bytes` are the same. -/
structure Kept (l l' : BufList) : Prop where
  dataBytes : l'.dataBytes = l.dataBytes
  minBuffers : l'.minBuffers = l.minBuffers
  maxBuffers : l'.maxBuffers = l.maxBuffers
  bufferLen : l'.bufferLen = l.bufferLen

theorem Kept.refl (l : BufList) : Kept l l := ⟨rfl, rfl, rfl, rfl⟩

theorem Kept.trans {l₁ l₂ l₃ : BufList} (h₁ : Kept l₁ l₂) (h₂ : Kept l₂ l₃) : Kept l₁ l₃ :=
  ⟨h₂.1.trans h₁.1, h₂.2.trans h₁.2, h₂.3.trans h₁.3, h₂.4.trans h₁.4⟩

variable {string : Bool} {l : BufList} {full rest : List (Nat × Chunk)}

/-- A buffer of the list is in the heap. -/
theorem Shape.cell {xs ys : List (Nat × Chunk)} {a : Nat} {c : Chunk}
    (hs : Shape string l full rest) (heq : full ++ rest = xs ++ (a, c) :: ys) :
    l.heap a = some ⟨c, ys.head?.map Prod.fst⟩ :=
  Seg.cell (heq ▸ hs.chain)

theorem Shape.bufs (hs : Shape string l full rest) : l.bufs = full ++ rest := by
  have hlen : l.buffers.toNat = (full ++ rest).length := by
    rw [hs.buffers, Int.toNat_natCast]
  rw [BufList.bufs, hlen, hs.chain.collect]

/-- An empty buffer is put at the end. -/
theorem ustreamAddBuf_spec {buf : Nat} {c : Chunk} {n : Option Nat}
    (hs : Shape string l full rest) (hbuf : buf ∉ (full ++ rest).map Prod.fst)
    (hlt : buf < l.fresh) (hheap : l.heap buf = some ⟨c, n⟩) (hc : c.tail = 0)
    (hterm : c.Terminated string) (hmax : l.buffers + 1 ≤ INT_MAX) :
    ∃ l', ustreamAddBuf l buf = some l' ∧ Shape string l' full (rest ++ [(buf, c)]) ∧
      Kept l l' ∧ l'.tail = some buf := by
  have hadd : addInt l.buffers 1 = some (l.buffers + 1) := by
    apply addInt_of_le
    · rw [hs.buffers]
      omega
    · exact hmax
  have hnodup : ((full ++ (rest ++ [(buf, c)])).map Prod.fst).Nodup := by
    rw [← List.append_assoc, List.map_append, List.nodup_append]
    refine ⟨hs.nodup, by simp, ?_⟩
    intro a ha b hb hab
    simp only [List.map_cons, List.map_nil, List.mem_singleton] at hb
    exact hbuf (hb ▸ hab ▸ ha)
  have hmem : ∀ x ∈ full ++ (rest ++ [(buf, c)]), x ∈ full ++ rest ∨ x = (buf, c) := by
    intro x hx
    rw [← List.append_assoc, List.mem_append, List.mem_singleton] at hx
    exact hx
  have hfresh : ∀ a ∈ (full ++ (rest ++ [(buf, c)])).map Prod.fst, a < l.fresh := by
    intro a ha
    obtain ⟨x, hx, rfl⟩ := List.mem_map.mp ha
    rcases hmem x hx with hx | rfl
    · exact hs.fresh x.1 (List.mem_map_of_mem hx)
    · exact hlt
  have hused : ∀ x ∈ full ++ (rest ++ [(buf, c)]), x.2.tail = 0 ∨ x.2.data < x.2.tail := by
    intro x hx
    rcases hmem x hx with hx | rfl
    · exact hs.used x hx
    · exact .inl hc
  have hterms : ∀ x ∈ full ++ (rest ++ [(buf, c)]), x.2.Terminated string := by
    intro x hx
    rcases hmem x hx with hx | rfl
    · exact hs.terminated x hx
    · exact hterm
  have hbuffers : l.buffers + 1 = (full ++ (rest ++ [(buf, c)])).length := by
    rw [hs.buffers]
    simp
    omega
  rcases List.eq_nil_or_concat (full ++ rest) with hnil | ⟨xs, ⟨a, b⟩, hsnoc⟩
  · -- the list has no buffer yet
    obtain ⟨rfl, rfl⟩ := List.append_eq_nil_iff.mp hnil
    have htail : l.tail = none := hs.tail
    have hdataTail : l.dataTail = none := hs.dataTail
    refine ⟨{ l with
      buffers := l.buffers + 1, head := some buf, tail := some buf, dataTail := some buf
      heap := Function.update l.heap buf (some ⟨c, none⟩) }, ?_, ?_, ⟨rfl, rfl, rfl, rfl⟩, rfl⟩
    · simp [ustreamAddBuf, hadd, htail, hheap, hdataTail, BufList.put]
    · exact
        { chain := by simp
          nodup := hnodup, fresh := hfresh, tail := rfl, dataTail := rfl
          nonempty := fun _ => rfl, buffers := hbuffers, full_tail := hs.full_tail
          used := hused, spare := by simp, terminated := hterms }
  · rw [List.concat_eq_append] at hsnoc
    have htail : l.tail = some a := by
      rw [hs.tail, hsnoc]
      simp
    have hcell : l.heap a = some ⟨b, none⟩ := hs.cell hsnoc
    have hne : buf ≠ a := by
      rintro rfl
      exact hbuf (hsnoc ▸ by simp)
    have hrest : rest ≠ [] := by
      intro h
      have := hs.nonempty h
      simp [h, this] at hsnoc
    obtain ⟨x, rest', rfl⟩ := List.exists_cons_of_ne_nil hrest
    have hdataTail : l.dataTail = some x.1 := hs.dataTail
    refine ⟨{ l with
      buffers := l.buffers + 1, tail := some buf
      heap := Function.update (Function.update l.heap a (some ⟨b, some buf⟩)) buf
        (some ⟨c, none⟩) }, ?_, ?_, ⟨rfl, rfl, rfl, rfl⟩, rfl⟩
    · simp [ustreamAddBuf, hadd, htail, hcell, hheap, hdataTail, hne, BufList.put]
    · have hchain : Seg _ l.head (xs ++ [(a, b), (buf, c)]) none :=
        (hsnoc ▸ hs.chain).link (hsnoc ▸ hs.nodup) (hsnoc ▸ hbuf)
      have heq : full ++ (x :: rest' ++ [(buf, c)]) = xs ++ [(a, b), (buf, c)] := by
        rw [← List.append_assoc, hsnoc]
        simp
      exact
        { chain := by
            rw [heq]
            exact hchain
          nodup := hnodup, fresh := hfresh
          tail := by
            rw [heq]
            simp
          dataTail := hdataTail
          nonempty := fun h => by simp at h
          buffers := hbuffers, full_tail := hs.full_tail, used := hused
          spare := by
            intro y hy
            rcases List.mem_append.mp hy with hy | hy
            · exact hs.spare y hy
            · rw [List.mem_singleton.mp hy]
              exact hc
          terminated := hterms }

/-- The first buffer is taken out of the list. -/
theorem Shape.unlink {x : Nat × Chunk} {xs : List (Nat × Chunk)} {heap : Heap Nat Chunk}
    (hs : Shape string l full rest) (hxs : full ++ rest = x :: xs)
    (hframe : ∀ a ∈ xs.map Prod.fst, heap a = l.heap a) :
    ∃ full' rest', full' ++ rest' = xs ∧
      Shape string
        { l with
          head := xs.head?.map Prod.fst
          dataTail := if some x.1 = l.dataTail then xs.head?.map Prod.fst else l.dataTail
          tail := if some x.1 = l.tail then none else l.tail
          buffers := l.buffers + -1
          heap } full' rest' := by
  have hchain := hs.chain
  have hnodup := hs.nodup
  have hfresh := hs.fresh
  have htail := hs.tail
  have hbuffers := hs.buffers
  have hused := hs.used
  have hterm := hs.terminated
  rw [hxs] at hchain hnodup hfresh htail hbuffers hused hterm
  obtain ⟨-, n, -, hsegn⟩ := hchain
  have hn : n = xs.head?.map Prod.fst := hsegn.head
  have hseg : Seg heap (xs.head?.map Prod.fst) xs none := (hn ▸ hsegn).frame hframe
  rw [List.map_cons, List.nodup_cons] at hnodup
  have htail' : (if some x.1 = l.tail then none else l.tail) = xs.getLast?.map Prod.fst := by
    rcases List.eq_nil_or_concat xs with rfl | ⟨ys, y, hconcat⟩
    · simp [htail]
    · rw [List.concat_eq_append] at hconcat
      subst hconcat
      have hne : x.1 ≠ y.1 := by
        intro h
        exact hnodup.1 (by simp [h])
      have hlast : l.tail = some y.1 := by
        rw [htail, ← List.cons_append, List.getLast?_concat]
        rfl
      simp [hlast, hne]
  have hlen : l.buffers + -1 = xs.length := by
    rw [hbuffers]
    simp
  have hfresh' : ∀ a ∈ xs.map Prod.fst, a < l.fresh := fun a ha =>
    hfresh a (List.mem_cons_of_mem _ ha)
  cases full with
  | nil =>
      obtain rfl : rest = x :: xs := hxs
      have hdataTail : some x.1 = l.dataTail := hs.dataTail.symm
      exact ⟨[], xs, rfl,
        { chain := hseg
          nodup := hnodup.2, fresh := hfresh', tail := htail'
          dataTail := if_pos hdataTail
          nonempty := fun _ => rfl
          buffers := hlen
          full_tail := fun y hy => by simp at hy
          used := fun y hy => hused y (List.mem_cons_of_mem _ hy)
          spare := fun y hy => hs.spare y (List.mem_of_mem_tail hy)
          terminated := fun y hy => hterm y (List.mem_cons_of_mem _ hy) }⟩
  | cons z full =>
      obtain ⟨rfl, rfl⟩ := List.cons.inj hxs
      have hdataTail : some z.1 ≠ l.dataTail := by
        rw [hs.dataTail]
        intro h
        obtain ⟨y, hy, hyz⟩ := Option.map_eq_some_iff.mp h.symm
        apply hnodup.1
        rw [← hyz]
        exact List.mem_map_of_mem (List.mem_append_right _ (List.mem_of_mem_head? hy))
      refine ⟨full, rest, rfl,
        { chain := hseg
          nodup := hnodup.2, fresh := hfresh', tail := htail'
          dataTail := (if_neg hdataTail).trans hs.dataTail
          nonempty := fun h => nomatch hs.nonempty h
          buffers := hlen
          full_tail := fun y hy => hs.full_tail y (List.mem_cons_of_mem _ hy)
          used := fun y hy => hused y (List.mem_cons_of_mem _ hy)
          spare := hs.spare
          terminated := fun y hy => hterm y (List.mem_cons_of_mem _ hy) }⟩

/-- The first buffer is freed, or put back empty at the end. -/
theorem ustreamFreeBuf_spec {x : Nat × Chunk} {xs : List (Nat × Chunk)}
    (hs : Shape string l full rest) (hxs : full ++ rest = x :: xs) (hmax : l.buffers ≤ INT_MAX) :
    ∃ l' full' rest' spares, ustreamFreeBuf l x.1 = some l' ∧ Shape string l' full' rest' ∧
      Kept l l' ∧ full' ++ rest' = xs ++ spares ∧ contents spares = [] ∧ spares.length ≤ 1 := by
  have hcell : l.heap x.1 = some ⟨x.2, xs.head?.map Prod.fst⟩ := hs.cell (hxs.trans (List.nil_append _).symm)
  have hhead : l.head = some x.1 := by
    rw [hs.chain.head, hxs]
    rfl
  have hbuffers : l.buffers = xs.length + 1 := by
    rw [hs.buffers, hxs]
    simp
  have hsub : addInt l.buffers (-1) = some (l.buffers + -1) := by
    apply addInt_of_le <;> omega
  have hnot : x.1 ∉ xs.map Prod.fst := by
    have := hs.nodup
    rw [hxs, List.map_cons, List.nodup_cons] at this
    exact this.1
  have hframe : ∀ b : Option UstreamBuf, ∀ a ∈ xs.map Prod.fst,
      Function.update l.heap x.1 b a = l.heap a := by
    intro b a ha
    apply Function.update_of_ne
    rintro rfl
    exact hnot ha
  by_cases hkeep : l.buffers + -1 ≥ l.minBuffers
  · obtain ⟨full', rest', heq, hs'⟩ := hs.unlink hxs (hframe none)
    refine ⟨_, full', rest', [], ?_, hs', ⟨rfl, rfl, rfl, rfl⟩, by simpa using heq, rfl,
      Nat.zero_le 1⟩
    simp [ustreamFreeBuf, hcell, hhead, hsub, hkeep, BufList.put]
  · obtain ⟨c, hinit, hblank, hsize, hlen⟩ :=
      ustreamInitBuf_spec x.2.size_pos x.2.size_le
    obtain ⟨full', rest', heq, hs'⟩ := hs.unlink hxs (hframe (some ⟨c, none⟩))
    have hterm : c.Terminated string := by
      intro hstring
      have hlt := (hs.terminated x (by simp [hxs]) hstring).1
      refine ⟨by omega, ?_⟩
      rw [hblank.tail]
      exact hblank.first
    obtain ⟨l', hadd, hs'', hkept, -⟩ := ustreamAddBuf_spec (c := c) (n := none) hs'
      (heq ▸ hnot) (hs.fresh x.1 (by simp [hxs])) (by simp) hblank.tail hterm
      (by simp; omega)
    refine ⟨l', full', rest' ++ [(x.1, c)], [(x.1, c)], ?_, hs'', ?_, ?_, ?_, Nat.le_refl 1⟩
    · rw [← hadd]
      simp [ustreamFreeBuf, hcell, hhead, hsub, hkeep, hinit, BufList.put]
    · exact ⟨hkept.1, hkept.2, hkept.3, hkept.4⟩
    · rw [← List.append_assoc, heq]
    · simp [contents, hblank.content]

/-- The structure of one buffer is changed. -/
theorem Shape.set {full' rest' xs ys : List (Nat × Chunk)} {a : Nat} {b c : Chunk}
    (hs : Shape string l full rest) (hold : full ++ rest = xs ++ (a, b) :: ys)
    (hnew : full' ++ rest' = xs ++ (a, c) :: ys)
    (hfirst : rest'.head?.map Prod.fst = rest.head?.map Prod.fst)
    (hfull : ∀ x ∈ full', x.2.tail = x.2.size) (hspare : ∀ x ∈ rest'.tail, x.2.tail = 0)
    (hused : c.tail = 0 ∨ c.data < c.tail) (hterm : c.Terminated string) :
    Shape string (l.put a (some ⟨c, ys.head?.map Prod.fst⟩)) full' rest' := by
  have hids : (full' ++ rest').map Prod.fst = (full ++ rest).map Prod.fst := by
    simp [hnew, hold]
  have hcell : (l.heap a).map Cell.next = some (ys.head?.map Prod.fst) := by
    rw [hs.cell hold]
    rfl
  have hmem : ∀ x ∈ full' ++ rest', x ∈ full ++ rest ∨ x = (a, c) := by
    intro x hx
    rw [hnew, List.mem_append, List.mem_cons] at hx
    rw [hold, List.mem_append, List.mem_cons]
    rcases hx with hx | hx | hx
    · exact .inl (.inl hx)
    · exact .inr hx
    · exact .inl (.inr (.inr hx))
  exact
    { chain := by
        rw [hnew]
        exact (hold ▸ hs.chain).set (hold ▸ hs.nodup) hcell
      nodup := hids ▸ hs.nodup
      fresh := hids ▸ hs.fresh
      tail := by
        rw [List.getLast?_map.symm, hids, List.getLast?_map]
        exact hs.tail
      dataTail := hs.dataTail.trans hfirst.symm
      nonempty := by
        rintro rfl
        have hrest : rest = [] := by simpa using hfirst.symm
        simp [hs.nonempty hrest, hrest] at hold
      buffers := by
        have hlen := congrArg List.length hids
        rw [List.length_map, List.length_map] at hlen
        exact hs.buffers.trans (by rw [hlen])
      full_tail := hfull
      used := by
        intro x hx
        rcases hmem x hx with hx | rfl
        · exact hs.used x hx
        · exact hused
      spare := hspare
      terminated := by
        intro x hx
        rcases hmem x hx with hx | rfl
        · exact hs.terminated x hx
        · exact hterm }

/-- The buffer at `data_tail` is changed. -/
theorem Shape.set_cur {x : Nat × Chunk} {xs : List (Nat × Chunk)} {c : Chunk}
    (hs : Shape string l full (x :: xs)) (hused : c.tail = 0 ∨ c.data < c.tail)
    (hterm : c.Terminated string) :
    Shape string (l.put x.1 (some ⟨c, xs.head?.map Prod.fst⟩)) full ((x.1, c) :: xs) :=
  hs.set rfl rfl rfl hs.full_tail hs.spare hused hterm

/-- The first buffer is changed behind its `tail`. -/
theorem Shape.set_first {x : Nat × Chunk} {xs : List (Nat × Chunk)} {c : Chunk}
    (hs : Shape string l full rest) (hxs : full ++ rest = x :: xs) (htail : c.tail = x.2.tail)
    (hsize : c.size = x.2.size) (hused : c.tail = 0 ∨ c.data < c.tail)
    (hterm : c.Terminated string) :
    ∃ full' rest', full' ++ rest' = (x.1, c) :: xs ∧
      Shape string (l.put x.1 (some ⟨c, xs.head?.map Prod.fst⟩)) full' rest' := by
  cases full with
  | nil =>
      obtain rfl : rest = x :: xs := hxs
      exact ⟨[], _, rfl, hs.set_cur hused hterm⟩
  | cons z full =>
      obtain ⟨rfl, rfl⟩ := List.cons.inj hxs
      refine ⟨(z.1, c) :: full, rest, rfl,
        hs.set (List.nil_append _).symm rfl rfl ?_ hs.spare hused hterm⟩
      intro y hy
      rcases List.mem_cons.mp hy with rfl | hy
      · rw [htail, hsize]
        exact hs.full_tail z List.mem_cons_self
      · exact hs.full_tail y (List.mem_cons_of_mem _ hy)

theorem Shape.bound_eq (hs : Shape string l full rest) : bound l
    = ((full ++ rest).map fun x => x.2.size).sum
      + (l.maxBuffers - l.buffers).toNat * l.bufferLen := by
  rw [bound, hs.bufs]

theorem contents_append (xs ys : List (Nat × Chunk)) :
    contents (xs ++ ys) = contents xs ++ contents ys := by
  simp [contents]

theorem contents_eq_nil {xs : List (Nat × Chunk)} (h : ∀ x ∈ xs, x.2.tail = 0) :
    contents xs = [] := by
  rw [contents, List.flatMap_eq_nil_iff]
  intro x hx
  apply List.eq_nil_of_length_eq_zero
  rw [Chunk.content_length, h x hx, Nat.zero_sub]

theorem upTo_append {ys xs : List (Nat × Chunk)} {x : Nat × Chunk}
    (hnot : x.1 ∉ ys.map Prod.fst) : upTo (some x.1) (ys ++ x :: xs) = ys ++ [x] := by
  induction ys with
  | nil => simp [upTo]
  | cons y ys ih =>
      have hne : y.1 ≠ x.1 := fun h => hnot (h ▸ List.mem_cons_self)
      have hys : x.1 ∉ ys.map Prod.fst := fun h => hnot (List.mem_cons_of_mem _ h)
      simp [upTo, hne, ih hys]

/-- The bytes of a list are in its full buffers and the one at `data_tail`. -/
theorem Shape.queued_eq (hs : Shape string l full rest) : queued l = contents (full ++ rest) := by
  rw [queued, hs.bufs, hs.dataTail]
  cases rest with
  | nil =>
      rw [hs.nonempty rfl]
      rfl
  | cons x xs =>
      have hnot : x.1 ∉ full.map Prod.fst := by
        have hnodup := hs.nodup
        rw [List.map_append, List.nodup_append] at hnodup
        intro hx
        exact hnodup.2.2 x.1 hx x.1 (by simp) rfl
      have hspare : contents xs = [] := contents_eq_nil hs.spare
      rw [List.head?_cons, Option.map_some, upTo_append hnot, List.append_cons full x xs,
        contents_append (full ++ [x]), hspare, List.append_nil]

/-! ## Making room -/

/-- `data_tail` goes to another buffer: all in front of it are full. -/
theorem Shape.setDataTail (hs : Shape string l full rest) (full' rest' : List (Nat × Chunk))
    (heq : full' ++ rest' = full ++ rest) (hne : rest' ≠ [])
    (hfull : ∀ x ∈ full', x.2.tail = x.2.size) (hspare : ∀ x ∈ rest'.tail, x.2.tail = 0) :
    Shape string { l with dataTail := rest'.head?.map Prod.fst } full' rest' :=
  { chain := heq ▸ hs.chain
    nodup := heq ▸ hs.nodup
    fresh := heq ▸ hs.fresh
    tail := heq ▸ hs.tail
    dataTail := rfl
    nonempty := fun h => absurd h hne
    buffers := heq ▸ hs.buffers
    full_tail := hfull
    used := heq ▸ hs.used
    spare := hspare
    terminated := heq ▸ hs.terminated }

/-- What making room does to a list: the bytes are kept, and so is how much the
list can hold; when it succeeds the buffer at `data_tail` has room. -/
structure MadeRoom (string : Bool) (l : BufList) (full rest : List (Nat × Chunk)) (ok : Bool)
    (l' : BufList) (full' rest' : List (Nat × Chunk)) : Prop where
  shape : Shape string l' full' rest'
  kept : Kept l l'
  contents : contents (full' ++ rest') = contents (full ++ rest)
  bound : 0 < l.maxBuffers → bound l' = bound l
  buffers : l.buffers ≤ INT_MAX → l'.buffers ≤ INT_MAX
  room : ok = true → ∃ x xs, rest' = x :: xs ∧ x.2.tail < x.2.size

/-- Another buffer is allocated, when all are full. -/
theorem ustreamGrow_spec (stringData : Bool) (hs : Shape string l full rest)
    (hstring : string = true → stringData = true) (hlen : 0 < l.bufferLen)
    (hall : ∀ x ∈ full ++ rest, x.2.tail = x.2.size)
    (hmax : ustreamCanAlloc l = true → l.buffers + 1 ≤ INT_MAX) :
    ∃ l' full' rest', ustreamGrow stringData l = some (l', ustreamCanAlloc l) ∧
      MadeRoom string l full rest (ustreamCanAlloc l) l' full' rest' := by
  by_cases hcan : ustreamCanAlloc l = true
  swap
  · refine ⟨l, full, rest, ?_, hs, Kept.refl l, rfl, fun _ => rfl, id, fun h => absurd h hcan⟩
    simp [ustreamGrow, hcan]
  have hle : l.bufferLen
      ≤ ((List.range (l.bufferLen + stringData.toNat)).map (l.garbage l.fresh)).length := by
    simp
  obtain ⟨c, hinit, hblank, hsize, hbytes⟩ := ustreamInitBuf_spec hlen hle
  have hnot : l.fresh ∉ (full ++ rest).map Prod.fst := fun h =>
    Nat.lt_irrefl _ (hs.fresh _ h)
  have hframe : ∀ a ∈ (full ++ rest).map Prod.fst,
      Function.update l.heap l.fresh (some ⟨c, none⟩) a = l.heap a := by
    intro a ha
    apply Function.update_of_ne
    rintro rfl
    exact hnot ha
  have hs₁ : Shape string
      { l with
        heap := Function.update l.heap l.fresh (some ⟨c, none⟩), fresh := l.fresh + 1 }
      full rest :=
    { hs with
      chain := hs.chain.frame hframe
      fresh := fun a ha => Nat.lt_succ_of_lt (hs.fresh a ha) }
  have hterm : c.Terminated string := by
    intro h
    have hextra : stringData = true := hstring h
    refine ⟨?_, ?_⟩
    · rw [hsize, hbytes]
      simp [hextra]
    · rw [hblank.tail]
      exact hblank.first
  obtain ⟨l', hadd, hs', hkept, htail⟩ := ustreamAddBuf_spec (n := none) hs₁ hnot
    (Nat.lt_succ_self _) (Function.update_self ..) hblank.tail hterm (hmax hcan)
  have heq : (full ++ rest) ++ [(l.fresh, c)] = full ++ (rest ++ [(l.fresh, c)]) :=
    List.append_assoc ..
  have hs'' : Shape string { l' with dataTail := l'.tail } (full ++ rest) [(l.fresh, c)] := by
    have hfirst : [(l.fresh, c)].head?.map Prod.fst = l'.tail := htail.symm
    have hmoved := hs'.setDataTail _ _ heq (by simp) hall (by simp)
    rw [hfirst] at hmoved
    exact hmoved
  have hb : l'.buffers = l.buffers + 1 := by
    rw [hs'.buffers, hs.buffers]
    simp
    omega
  refine ⟨{ l' with dataTail := l'.tail }, full ++ rest, [(l.fresh, c)], ?_, hs'',
    ⟨hkept.1, hkept.2, hkept.3, hkept.4⟩, ?_, ?_, fun _ => hb ▸ hmax hcan, ?_⟩
  · simp [ustreamGrow, ustreamAllocDefault, hcan, hinit, BufList.put, hadd]
  · rw [contents_append]
    simp [contents, hblank.content]
  · intro hpos
    have hlt : l.buffers < l.maxBuffers := by
      have hnpos : ¬l.maxBuffers ≤ 0 := by omega
      simpa [ustreamCanAlloc, hnpos] using hcan
    have hmb : l'.maxBuffers = l.maxBuffers := hkept.maxBuffers
    have hbl : l'.bufferLen = l.bufferLen := hkept.bufferLen
    have hroom : (l.maxBuffers - l.buffers).toNat
        = (l.maxBuffers - (l.buffers + 1)).toNat + 1 := by omega
    rw [hs''.bound_eq, hs.bound_eq, hroom, Nat.succ_mul]
    simp [hb, hmb, hbl, hsize]
    omega
  · intro _
    refine ⟨(l.fresh, c), [], rfl, ?_⟩
    rw [hblank.tail]
    exact c.size_pos

theorem Shape.content_ne_nil (hs : Shape string l full rest) {x : Nat × Chunk}
    (hx : x ∈ full ++ rest) (htail : x.2.tail ≠ 0) : x.2.content ≠ [] := by
  intro h
  have hlen := x.2.content_length
  rw [h, List.length_nil] at hlen
  rcases hs.used x hx with hzero | hlt
  · exact htail hzero
  · omega

/-- Another buffer is needed only when all are full. -/
theorem Shape.all_full {len : Nat} (hs : Shape string l full rest)
    (hgrow : mustGrow l len = true) : ∀ x ∈ full ++ rest, x.2.tail = x.2.size := by
  cases rest with
  | nil => simpa using hs.full_tail
  | cons x xs =>
      have hdataTail : l.dataTail = some x.1 := hs.dataTail
      have hcell : l.heap x.1 = some ⟨x.2, xs.head?.map Prod.fst⟩ := hs.cell rfl
      simp only [mustGrow, hdataTail, hcell, Bool.and_eq_true, decide_eq_true_eq,
        Option.isNone_iff_eq_none, Option.map_eq_none_iff, List.head?_eq_none_iff] at hgrow
      obtain ⟨⟨-, hfull⟩, rfl⟩ := hgrow
      intro y hy
      rcases List.mem_append.mp hy with hy | hy
      · exact hs.full_tail y hy
      · rw [List.mem_singleton.mp hy]
        exact hfull

theorem Shape.all_data {len : Nat} (hs : Shape string l full rest)
    (hgrow : mustGrow l len = true) : ∀ x ∈ full ++ rest, x.2.content ≠ [] := by
  intro x hx
  apply hs.content_ne_nil hx
  rw [hs.all_full hgrow x hx]
  exact Nat.pos_iff_ne_zero.mp x.2.size_pos

theorem ustreamPrepareBuf_of_mustGrow {len : Nat} (stringData isR : Bool)
    (hs : Shape string l full rest) (hgrow : mustGrow l len = true) :
    ustreamPrepareBuf stringData isR l len = ustreamGrow stringData l := by
  cases rest with
  | nil =>
      have hdataTail : l.dataTail = none := hs.dataTail
      rw [ustreamPrepareBuf, hdataTail]
  | cons x xs =>
      have hdataTail : l.dataTail = some x.1 := hs.dataTail
      have hcell : l.heap x.1 = some ⟨x.2, xs.head?.map Prod.fst⟩ := hs.cell rfl
      have hput : l.put x.1 (some ⟨x.2, xs.head?.map Prod.fst⟩) = l := by
        simp [BufList.put, ← hcell]
      simp only [mustGrow, hdataTail, hcell, Bool.and_eq_true, decide_eq_true_eq,
        Bool.not_eq_true', Option.isNone_iff_eq_none] at hgrow
      obtain ⟨⟨hmove, hfull⟩, hnext⟩ := hgrow
      rw [hnext] at hput hcell
      simp [ustreamPrepareBuf, hdataTail, hcell, hmove, hput, hfull]

/-- There is room at `data_tail`, after the data was moved or in the buffer
that follows. -/
theorem ustreamPrepareBuf_of_room {isR : Bool} {len : Nat} (stringData : Bool)
    (hs : Shape (isR && stringData) l full rest) (hgrow : mustGrow l len = false) :
    ∃ l' full' rest', ustreamPrepareBuf stringData isR l len = some (l', true) ∧
      MadeRoom (isR && stringData) l full rest true l' full' rest' := by
  cases rest with
  | nil =>
      have hdataTail : l.dataTail = none := hs.dataTail
      simp [mustGrow, hdataTail] at hgrow
  | cons x xs =>
      have hdataTail : l.dataTail = some x.1 := hs.dataTail
      have hcell : l.heap x.1 = some ⟨x.2, xs.head?.map Prod.fst⟩ := hs.cell rfl
      by_cases hmove : ustreamShouldMove l x.1 x.2 len = true
      · -- the data is moved, and there is room behind it
        have hdata : x.2.data ≠ 0 := by
          intro h
          simp [ustreamShouldMove, h] at hmove
        have hle := x.2.data_le
        have htail := x.2.tail_le
        obtain ⟨c, hfix, hcontent, hcdata, hctail, hcsize, hcterm⟩ :=
          Chunk.fixup_spec (c := x.2.move) (isR && stringData) (by
            intro h
            rw [Chunk.length_bytes_move]
            exact (hs.terminated x (by simp) h).1)
        have hctail' : c.tail = x.2.tail - x.2.data := hctail
        have hcsize' : c.size = x.2.size := hcsize
        have hcdata' : c.data = 0 := hcdata
        have hs' := hs.set_cur (c := c) (by omega) hcterm
        refine ⟨_, full, (x.1, c) :: xs, ?_, hs', ⟨rfl, rfl, rfl, rfl⟩, ?_, ?_, id, ?_⟩
        · have hne : c.tail ≠ c.size := by omega
          simp [ustreamPrepareBuf, hdataTail, hcell, hmove, hfix, hne]
        · simp [contents, hcontent]
        · intro _
          rw [hs'.bound_eq, hs.bound_eq]
          simp [BufList.put, hcsize']
        · intro _
          exact ⟨(x.1, c), xs, rfl, by simp; omega⟩
      have hput : l.put x.1 (some ⟨x.2, xs.head?.map Prod.fst⟩) = l := by
        simp [BufList.put, ← hcell]
      by_cases hfull : x.2.tail = x.2.size
      swap
      · -- some chunks available at the tail
        have hlt := Nat.lt_of_le_of_ne x.2.tail_le hfull
        refine ⟨l, full, x :: xs, ?_, hs, Kept.refl l, rfl, fun _ => rfl, id, fun _ =>
          ⟨x, xs, rfl, hlt⟩⟩
        simp [ustreamPrepareBuf, hdataTail, hcell, hmove, hput, hfull]
      cases xs with
      | nil => simp [mustGrow, hdataTail, hcell, hmove, hfull] at hgrow
      | cons y ys =>
          -- next buf available
          have hall : ∀ z ∈ full ++ [x], z.2.tail = z.2.size := by
            intro z hz
            rcases List.mem_append.mp hz with hz | hz
            · exact hs.full_tail z hz
            · rw [List.mem_singleton.mp hz]
              exact hfull
          have hs' := hs.setDataTail (full ++ [x]) (y :: ys) (by simp) (by simp) hall
            fun z hz => hs.spare z (List.mem_cons_of_mem _ hz)
          refine ⟨_, full ++ [x], y :: ys, ?_, hs', ⟨rfl, rfl, rfl, rfl⟩, ?_, ?_, id, ?_⟩
          · simp only [List.head?_cons, Option.map_some] at hput hcell
            simp [ustreamPrepareBuf, hdataTail, hcell, hmove, hput, hfull]
          · simp
          · intro _
            rw [hs'.bound_eq, hs.bound_eq]
            simp
          · intro _
            refine ⟨y, ys, rfl, ?_⟩
            rw [hs.spare y (by simp)]
            exact y.2.size_pos

/-- **Making room.**  It fails exactly when `noRoom` says so. -/
theorem ustreamPrepareBuf_spec (stringData isR : Bool) (len : Nat)
    (hs : Shape (isR && stringData) l full rest) (hlen : 0 < l.bufferLen)
    (hmax : mustGrow l len = true → ustreamCanAlloc l = true → l.buffers + 1 ≤ INT_MAX) :
    ∃ l' full' rest', ustreamPrepareBuf stringData isR l len = some (l', !noRoom l len) ∧
      MadeRoom (isR && stringData) l full rest (!noRoom l len) l' full' rest' := by
  by_cases hgrow : mustGrow l len = true
  · have hroom : (!noRoom l len) = ustreamCanAlloc l := by simp [noRoom, hgrow]
    rw [hroom, ustreamPrepareBuf_of_mustGrow stringData isR hs hgrow]
    exact ustreamGrow_spec stringData hs (by simp) hlen (hs.all_full hgrow) (hmax hgrow)
  · have hroom : (!noRoom l len) = true := by simp [noRoom, hgrow]
    rw [hroom]
    exact ustreamPrepareBuf_of_room stringData hs (by simpa using hgrow)

theorem ustreamPrepareBuf_of_noRoom {len : Nat} (stringData isR : Bool)
    (hs : Shape string l full rest) (hroom : noRoom l len = true) :
    ustreamPrepareBuf stringData isR l len = some (l, false) := by
  simp only [noRoom, Bool.and_eq_true, Bool.not_eq_true'] at hroom
  rw [ustreamPrepareBuf_of_mustGrow stringData isR hs hroom.1]
  simp [ustreamGrow, hroom.2]

/-- The counter `buffers` cannot take another buffer. -/
theorem ustreamPrepareBuf_eq_none {len : Nat} (stringData isR : Bool)
    (hs : Shape string l full rest) (hgrow : mustGrow l len = true)
    (hcan : ustreamCanAlloc l = true) (hmax : INT_MAX < l.buffers + 1) :
    ustreamPrepareBuf stringData isR l len = none := by
  have hadd : addInt l.buffers 1 = none := by
    apply if_neg
    omega
  rw [ustreamPrepareBuf_of_mustGrow stringData isR hs hgrow]
  simp only [ustreamGrow, ustreamAllocDefault, hcan, Bool.not_true, Bool.false_eq_true, if_false,
    Option.bind_eq_bind]
  cases ustreamInitBuf _ _ with
  | none => rfl
  | some c => simp [ustreamAddBuf, BufList.put, hadd]

/-! ## Queues -/

theorem length_le_contents {xs : List (Nat × Chunk)} (h : ∀ x ∈ xs, x.2.content ≠ []) :
    xs.length ≤ (contents xs).length := by
  induction xs with
  | nil => exact Nat.le_refl 0
  | cons x xs ih =>
      have hx := List.length_pos_of_ne_nil (h x List.mem_cons_self)
      have hxs := ih fun y hy => h y (List.mem_cons_of_mem _ hy)
      simp only [contents, List.flatMap_cons, List.length_append, List.length_cons] at hxs ⊢
      omega

theorem contents_length_le (xs : List (Nat × Chunk)) :
    (contents xs).length ≤ (xs.map fun x => x.2.size).sum := by
  induction xs with
  | nil => exact Nat.le_refl 0
  | cons x xs ih =>
      have htail := x.2.tail_le
      simp only [contents, List.flatMap_cons, List.length_append, List.map_cons, List.sum_cons,
        Chunk.content_length] at ih ⊢
      omega

theorem length_le_sizes (xs : List (Nat × Chunk)) :
    xs.length ≤ (xs.map fun x => x.2.size).sum := by
  induction xs with
  | nil => exact Nat.le_refl 0
  | cons x xs ih =>
      have hpos := x.2.size_pos
      simp only [List.map_cons, List.sum_cons, List.length_cons]
      omega

/-- A well-formed list that holds the bytes `q`. -/
structure Content (string : Bool) (l : BufList) (q : List UInt8) : Prop where
  shape : ∃ full rest, Shape string l full rest ∧ contents (full ++ rest) = q
  bufferLen : 0 < l.bufferLen
  buffers : l.buffers ≤ INT_MAX

/-- A well-formed list that holds the bytes `q` and has counted them. -/
structure Queue (string : Bool) (l : BufList) (q : List UInt8) : Prop
    extends Content string l q where
  dataBytes : l.dataBytes = q.length
  small : (q.length : Int) ≤ INT_MAX

theorem Content.queued_eq {q : List UInt8} (h : Content string l q) : queued l = q := by
  obtain ⟨full, rest, hs, hq⟩ := h.shape
  rw [hs.queued_eq, hq]

theorem Content.setDataBytes {q : List UInt8} (h : Content string l q) (n : Int) :
    Content string (l.setDataBytes n) q := by
  obtain ⟨full, rest, hs, hq⟩ := h.shape
  exact ⟨⟨full, rest, { hs with }, hq⟩, h.bufferLen, h.buffers⟩

/-- The list of a stream after `ustream_init_defaults`. -/
theorem Queue.empty (hhead : l.head = none) (hdataTail : l.dataTail = none)
    (htail : l.tail = none) (hbytes : l.dataBytes = 0) (hbuffers : l.buffers = 0)
    (hlen : 0 < l.bufferLen) : Queue string l [] :=
  { shape := by
      refine ⟨[], [], ?_, rfl⟩
      exact
        { chain := hhead, nodup := by simp, fresh := by simp, tail := htail
          dataTail := hdataTail, nonempty := fun _ => rfl, buffers := hbuffers
          full_tail := by simp, used := by simp, spare := by simp, terminated := by simp }
    bufferLen := hlen
    buffers := by
      rw [hbuffers]
      decide
    dataBytes := hbytes
    small := by decide }

/-- A list without a limit always has room. -/
theorem ustreamCanAlloc_of_unlimited (h : l.maxBuffers ≤ 0) : ustreamCanAlloc l = true := by
  simp [ustreamCanAlloc, h]

/-- Room for one byte at least is made, or there is none. -/
theorem Queue.prepare {q : List UInt8} {n : Nat} (stringData isR : Bool) (len : Nat)
    (h : Queue (isR && stringData) l q) (hholds : Holds l n) (hn : 0 < n) :
    ∃ l' ok, ustreamPrepareBuf stringData isR l len = some (l', ok) ∧
      Queue (isR && stringData) l' q ∧
      Holds l' n ∧ l'.maxBuffers = l.maxBuffers ∧ (l.maxBuffers ≤ 0 → ok = true) ∧
      ok = !noRoom l len ∧
      (ok = true → ∃ full x xs, Shape (isR && stringData) l' full (x :: xs) ∧
        contents (full ++ x :: xs) = q ∧ x.2.tail < x.2.size) := by
  obtain ⟨full, rest, hs, hq⟩ := h.shape
  have hmax : mustGrow l len = true → ustreamCanAlloc l = true →
      l.buffers + 1 ≤ INT_MAX := by
    intro hgrow hcan
    have hcount := length_le_contents (hs.all_data hgrow)
    rw [hs.buffers]
    rcases hholds with hlow | ⟨hpos, hbound⟩
    · rw [hs.queued_eq] at hlow
      omega
    · have hlt : l.buffers < l.maxBuffers := by
        have hnpos : ¬l.maxBuffers ≤ 0 := by omega
        simpa [ustreamCanAlloc, hnpos] using hcan
      have hsizes := length_le_sizes (full ++ rest)
      have hbl := h.bufferLen
      have hprod : 1 ≤ (l.maxBuffers - l.buffers).toNat * l.bufferLen :=
        Nat.mul_pos (by omega) hbl
      rw [hs.bound_eq] at hbound
      omega
  obtain ⟨l', full', rest', hprep, hmade⟩ :=
    ustreamPrepareBuf_spec stringData isR len hs h.bufferLen hmax
  have hq' : contents (full' ++ rest') = q := hmade.contents.trans hq
  have hqueue : Queue (isR && stringData) l' q :=
    { shape := ⟨full', rest', hmade.shape, hq'⟩
      dataBytes := hmade.kept.dataBytes.trans h.dataBytes
      small := h.small
      bufferLen := by
        rw [hmade.kept.bufferLen]
        exact h.bufferLen
      buffers := hmade.buffers h.buffers }
  refine ⟨l', _, hprep, hqueue, ?_, hmade.kept.maxBuffers, ?_, rfl, ?_⟩
  · refine hholds.imp ?_ ?_
    · intro hlow
      rw [hqueue.queued_eq]
      rw [h.queued_eq] at hlow
      exact hlow
    · rintro ⟨hpos, hbound⟩
      rw [hmade.kept.maxBuffers, hmade.bound hpos]
      exact ⟨hpos, hbound⟩
  · intro hlimit
    simp [noRoom, ustreamCanAlloc_of_unlimited hlimit]
  · intro hok
    obtain ⟨x, xs, rfl, hlt⟩ := hmade.room hok
    exact ⟨full', x, xs, hmade.shape, hq', hlt⟩

/-- The first buffer of a list that holds data holds data. -/
theorem Shape.first_content {x : Nat × Chunk} {xs : List (Nat × Chunk)}
    (hs : Shape string l full rest) (hxs : full ++ rest = x :: xs)
    (hne : contents (full ++ rest) ≠ []) : x.2.content ≠ [] := by
  cases full with
  | nil =>
      obtain rfl : rest = x :: xs := hxs
      intro hnil
      apply hne
      have hspare : contents xs = [] := contents_eq_nil hs.spare
      rw [List.nil_append, ← List.singleton_append, contents_append, hspare]
      simp [contents, hnil]
  | cons z full =>
      obtain ⟨rfl, rfl⟩ := List.cons.inj hxs
      apply hs.content_ne_nil List.mem_cons_self
      rw [hs.full_tail z List.mem_cons_self]
      exact Nat.pos_iff_ne_zero.mp z.2.size_pos

/-- What can be done with the first buffer of a list that holds the bytes `q`. -/
structure First (string : Bool) (l : BufList) (q : List UInt8) (buf : Nat) (b : UstreamBuf) :
    Prop where
  head : l.head = some buf
  heap : l.heap buf = some b
  content : b.val.content ≠ []
  start : b.val.content <+: q
  advance : ∀ n < b.val.content.length, ∃ c, b.val.advance n = some c ∧
    Content string (l.put buf (some { b with val := c })) (q.drop n)
  free : ∃ l', ustreamFreeBuf l buf = some l' ∧ Kept l l' ∧
    Content string l' (q.drop b.val.content.length) ∧
    (b.next = none ∧ q.drop b.val.content.length = [] ∨ b.next = l'.head)

/-- **The head of the queue.** -/
theorem Content.first {q : List UInt8} (h : Content string l q) (hne : q ≠ []) :
    ∃ buf b, First string l q buf b := by
  obtain ⟨full, rest, hs, rfl⟩ := h.shape
  obtain ⟨x, xs, hxs⟩ : ∃ x xs, full ++ rest = x :: xs := by
    apply List.exists_cons_of_ne_nil
    intro hnil
    exact hne (by rw [hnil]; rfl)
  have hq : contents (full ++ rest) = x.2.content ++ contents xs := by
    rw [hxs]
    rfl
  refine ⟨x.1, ⟨x.2, xs.head?.map Prod.fst⟩, ?_⟩
  exact
    { head := by
        rw [hs.chain.head, hxs]
        rfl
      heap := hs.cell (hxs.trans (List.nil_append _).symm)
      content := hs.first_content hxs hne
      start := by
        rw [hq]
        exact List.prefix_append _ _
      advance := by
        intro n hlt
        have hn : n < x.2.tail - x.2.data := by
          rw [← Chunk.content_length]
          exact hlt
        obtain ⟨c, hadvance, hcontent, hdata, htail, hsize, hbytes⟩ :=
          Chunk.advance_spec (c := x.2) (n := n) (by omega)
        have hterm : c.Terminated string := by
          intro hstring
          have hx := hs.terminated x (by simp [hxs]) hstring
          rw [hsize, hbytes, htail]
          exact hx
        obtain ⟨full', rest', heq, hs'⟩ :=
          hs.set_first hxs htail hsize (by omega) hterm
        refine ⟨c, hadvance, ⟨full', rest', hs', ?_⟩, h.bufferLen, h.buffers⟩
        have hnew : contents ((x.1, c) :: xs) = c.content ++ contents xs := rfl
        rw [heq, hnew, hq, hcontent, List.drop_append_of_le_length hlt.le]
      free := by
        obtain ⟨l', full', rest', spares, hfree, hs', hkept, heq, hspares, hone⟩ :=
          ustreamFreeBuf_spec hs hxs h.buffers
        refine ⟨l', hfree, hkept, ⟨⟨full', rest', hs', ?_⟩, ?_, ?_⟩, ?_⟩
        · rw [heq, contents_append, hspares, List.append_nil, hq, List.drop_left]
        · rw [hkept.bufferLen]
          exact h.bufferLen
        · have hlen := congrArg List.length heq
          have hold := hs.buffers
          have hmax := h.buffers
          rw [hxs] at hold
          rw [hs'.buffers]
          simp only [List.length_append, List.length_cons] at hlen hold ⊢
          omega
        · cases xs with
          | nil =>
              left
              rw [hq]
              simp [contents]
          | cons y ys =>
              right
              rw [hs'.chain.head, heq]
              rfl }

theorem Content.first_of {q : List UInt8} {buf : Nat} {b : UstreamBuf} (h : Content string l q)
    (hne : q ≠ []) (hhead : l.head = some buf) (hheap : l.heap buf = some b) :
    First string l q buf b := by
  obtain ⟨buf', b', hfirst⟩ := h.first hne
  obtain rfl : buf = buf' := Option.some.inj (hhead.symm.trans hfirst.head)
  obtain rfl : b = b' := Option.some.inj (hheap.symm.trans hfirst.heap)
  exact hfirst

end Libubox.Ustream
