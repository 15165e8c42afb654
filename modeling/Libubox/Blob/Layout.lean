import Libubox.Blob.Buffer

/-!
# What the encoder functions do to a buffer

The encoder only ever appends: the block is a used prefix followed by spare
bytes of no meaning.  The specifications below say for each function of
`blob.c` what it appends and which length field it rewrites, in terms of that
split; callers never look inside a function again.

An open container is an attribute whose children are still being written.
`Laid b f outer spare` is the invariant of a buffer with `f` the innermost
open container and `outer` the ones around it, innermost first.  The length
field of `f` is exact; the field of an outer container counts the bytes before
the header of the next open one, and that header.
-/

namespace Libubox.Blob

open Bytes

/-! ## Reading and storing at a cut of the block -/

namespace BlobBuf

/-- The block was grown by `blobBufferGrow` only and will always grow. -/
structure Sound (b : BlobBuf) : Prop where
  block : b.mem.length % 256 = 0
  alloc : ∀ k, (b.realloc k).isSome

theorem Sound.of_length {b : BlobBuf} {mem : Mem} (h : b.Sound)
    (hlen : mem.length = b.mem.length) : Sound { b with mem := mem } :=
  ⟨by simpa [hlen] using h.block, h.alloc⟩

theorem eq_withMem {b : BlobBuf} {mem : Mem} (h : b.mem = mem) : b = { b with mem := mem } := by
  subst h
  rfl

theorem ptr_eq {b : BlobBuf} {before after : Mem} {p : Nat}
    (hmem : b.mem = before ++ after) (hp : p = b.buf + before.length) :
    b.ptr p = after := by
  rw [ptr, hmem, hp, Nat.add_sub_cancel_left, List.drop_left]

theorem store_eq {b : BlobBuf} {before old after bs : Mem} {p : Nat}
    (hmem : b.mem = before ++ old ++ after) (hp : p = b.buf + before.length)
    (hlen : old.length = bs.length) :
    b.store p bs = some { b with mem := before ++ bs ++ after } := by
  have hoff : p - b.buf = before.length := by omega
  have hroom : before.length + bs.length ≤ b.mem.length := by
    rw [hmem, List.length_append, List.length_append]
    omega
  rw [store, if_pos ⟨by omega, by rw [hoff]; exact hroom⟩, hoff, hmem,
    overwrite_append rfl hlen]

end BlobBuf

/-- `blob_set_raw_len` rewrites one length field. -/
theorem blobSetRawLen_eq {b : BlobBuf} {before after : Mem} {extended : Bool}
    {id len p new : Nat} (hmem : b.mem = before ++ header extended id len ++ after)
    (hp : p = b.buf + before.length) (hid : id < 2 ^ 7) (hlen : len < 2 ^ 24)
    (hnew : new < 2 ^ 24) :
    blobSetRawLen b p new
      = some { b with mem := before ++ header extended id new ++ after } := by
  have hptr : b.ptr p = header extended id len ++ after :=
    BlobBuf.ptr_eq (by rw [hmem, List.append_assoc]) hp
  have hword : headerWord extended id len / 2 ^ 24 * 2 ^ 24 + new % 2 ^ 24
      = headerWord extended id new := by
    unfold headerWord
    split <;> omega
  rw [blobSetRawLen, hptr, idLen_header hid hlen, Option.bind_some, hword]
  exact BlobBuf.store_eq hmem hp (by simp)

/-! ## Attributes as bytes -/

/-- The zero bytes after a payload. -/
def padding (payload : Mem) : Mem :=
  List.replicate (alignUp 4 payload.length - payload.length) 0

/-- A complete attribute: header, payload and padding. -/
def attrBytes (extended : Bool) (id : Nat) (payload : Mem) : Mem :=
  header extended id (4 + payload.length) ++ payload ++ padding payload

theorem padding_eq_nil {payload : Mem} (h : payload.length % 4 = 0) : padding payload = [] := by
  rw [padding, alignUp_four_of_mod h, Nat.sub_self, List.replicate_zero]

theorem attrBytes_length (extended : Bool) (id : Nat) (payload : Mem) :
    (attrBytes extended id payload).length = 4 + alignUp 4 payload.length := by
  have := le_alignUp_four payload.length
  simp only [attrBytes, padding, List.length_append, header_length, List.length_replicate]
  omega

theorem attrBytes_length_mod (extended : Bool) (id : Nat) (payload : Mem) :
    (attrBytes extended id payload).length % 4 = 0 := by
  have := alignUp_four_mod payload.length
  rw [attrBytes_length]
  omega

theorem alignUp_four_add (n : Nat) : alignUp 4 (4 + n) = 4 + alignUp 4 n := by
  unfold alignUp
  omega

theorem blobPadLen_attrBytes {extended : Bool} {id : Nat} {payload rest : Mem}
    (hid : id < 2 ^ 7) (hsmall : 4 + payload.length < 2 ^ 24) :
    blobPadLen (attrBytes extended id payload ++ rest)
      = some (attrBytes extended id payload).length := by
  rw [attrBytes_length, attrBytes, List.append_assoc, List.append_assoc,
    blobPadLen_header hid hsmall, alignUp_four_add]

/-! ## Growing and adding -/

theorem blobBufGrow_eq {b : BlobBuf} (hsound : b.Sound) {h required : Nat}
    (hhead : b.head = b.buf + h) :
    ∃ new rest, blobBufGrow b required
        = (true, ⟨new + h, new, b.mem ++ List.replicate ((required / 256 + 1) * 256) 0, rest⟩) ∧
      BlobBuf.Sound
        ⟨new + h, new, b.mem ++ List.replicate ((required / 256 + 1) * 256) 0, rest⟩ := by
  obtain ⟨new, hnew⟩ := Option.isSome_iff_exists.mp (hsound.alloc 0)
  refine ⟨new, fun k => b.realloc (k + 1), ?_, ?_, fun k => hsound.alloc (k + 1)⟩
  · simp only [blobBufGrow, blobBufferGrow, hnew, attrToOffset, offsetToAttr, hhead,
      Nat.add_sub_cancel_left]
  · have := hsound.block
    simp only [List.length_append, List.length_replicate]
    omega

/-- Whether or not the block had to grow, there is room for the padded
attribute behind the used prefix. -/
theorem blobAddRoom_eq {b : BlobBuf} (hsound : b.Sound) {used spare : Mem} {h payload : Nat}
    (hmem : b.mem = used ++ spare) (hused : used.length % 4 = 0)
    (hhead : b.head = b.buf + h) :
    ∃ b' old rest, blobAddRoom b (b.buf + used.length) payload
        = (some (b'.buf + used.length), b') ∧
      b'.Sound ∧ b'.head = b'.buf + h ∧ b'.mem = used ++ old ++ rest ∧
      old.length = 4 + alignUp 4 payload := by
  have hblock := hsound.block
  have hpad : alignUp 4 payload < payload + 4 := alignUp_four_lt payload
  have hpadmod := alignUp_four_mod payload
  have hlen : b.mem.length = used.length + spare.length := by
    rw [hmem, List.length_append]
  rw [blobAddRoom, attrToOffset, Nat.add_sub_cancel_left, BlobBuf.buflen]
  by_cases hroom : b.mem.length < used.length + 4 + payload
  · obtain ⟨new, k, hgrow, hnew⟩ :=
      @blobBufGrow_eq b hsound h (used.length + 4 + payload - b.mem.length) hhead
    rw [if_pos hroom, hgrow]
    generalize hz : List.replicate
      (((used.length + 4 + payload - b.mem.length) / 256 + 1) * 256) (0 : UInt8) = zeros at hnew ⊢
    have hzlen : zeros.length
        = ((used.length + 4 + payload - b.mem.length) / 256 + 1) * 256 := by
      rw [← hz, List.length_replicate]
    refine ⟨_, (spare ++ zeros).take (4 + alignUp 4 payload),
      (spare ++ zeros).drop (4 + alignUp 4 payload), ?_, hnew, rfl, ?_, ?_⟩
    · rfl
    · rw [List.append_assoc used, List.take_append_drop, hmem, List.append_assoc]
    · rw [List.length_take, List.length_append]
      omega
  · refine ⟨b, spare.take (4 + alignUp 4 payload), spare.drop (4 + alignUp 4 payload),
      by rw [if_neg hroom], hsound, hhead, ?_, ?_⟩
    · rw [List.append_assoc used, List.take_append_drop, hmem]
    · rw [List.length_take]
      omega

/-- `blob_fill_pad` clears the bytes between the raw and the padded length. -/
theorem blobFillPad_eq {b : BlobBuf} {before content old after : Mem} {extended : Bool}
    {id p : Nat} (hmem : b.mem = before ++ header extended id (4 + content.length) ++ content
      ++ old ++ after)
    (hp : p = b.buf + before.length) (hid : id < 2 ^ 7)
    (hsmall : 4 + content.length < 2 ^ 24) (hold : old.length = (padding content).length) :
    blobFillPad b p = some { b with mem := before ++ attrBytes extended id content ++ after } := by
  have hptr : b.ptr p = header extended id (4 + content.length) ++ (content ++ old ++ after) :=
    BlobBuf.ptr_eq (by rw [hmem]; simp only [List.append_assoc]) hp
  rw [blobFillPad, hptr, blobRawLen_header hid hsmall, blobPadLen_header hid hsmall,
    Option.bind_some, Option.bind_some, alignUp_four_add]
  have hpadlen : (padding content).length = alignUp 4 content.length - content.length := by
    simp [padding]
  split
  · have hzeros : List.replicate (4 + alignUp 4 content.length - (4 + content.length)) (0 : UInt8)
        = padding content := by
      rw [padding]
      congr 1
      omega
    have hstore := @BlobBuf.store_eq b (before ++ header extended id (4 + content.length) ++ content)
      old after (padding content) (p + (4 + content.length)) hmem
      (by simp only [List.length_append, header_length]; omega) hold
    rw [hzeros, hstore]
    simp only [attrBytes, List.append_assoc]
  · have hnil : old = [] := List.length_eq_zero_iff.mp (by omega)
    have hpadnil : padding content = [] := List.length_eq_zero_iff.mp (by omega)
    refine congrArg some (BlobBuf.eq_withMem ?_)
    rw [hmem, hnil, attrBytes, hpadnil, List.append_nil, List.append_nil]
    simp only [List.append_assoc]

/-- `blob_add` at the end of the used prefix: the header is written, the
payload is whatever the block held there, and the padding is cleared. -/
theorem blobAdd_eq {b : BlobBuf} (hsound : b.Sound) {used spare : Mem} {h id payload : Nat}
    (hmem : b.mem = used ++ spare) (hused : used.length % 4 = 0)
    (hhead : b.head = b.buf + h) (hid : id < 2 ^ 7) (hsmall : 4 + payload < 2 ^ 24) :
    ∃ b' content spare', blobAdd b (b.buf + used.length) id payload
        = some (some (b'.buf + used.length), b') ∧
      b'.Sound ∧ b'.head = b'.buf + h ∧ content.length = payload ∧
      b'.mem = used ++ attrBytes false id content ++ spare' := by
  obtain ⟨c, old, rest, hroom, hc, hchead, hcmem, hold⟩ :=
    @blobAddRoom_eq b hsound used spare h payload hmem hused hhead
  have hpad := le_alignUp_four payload
  -- cut the room into header, payload and padding
  obtain ⟨word, content, pad, rfl, hword, hcontent⟩ :=
    @exists_three_parts _ old 4 payload (by omega)
  have hpadlen : pad.length = (padding content).length := by
    simp only [List.length_append] at hold
    simp only [padding, List.length_replicate, hcontent]
    omega
  have hinit : blobInit c (c.buf + used.length) id (payload + 4)
      = some { c with mem := used ++ header false id (4 + content.length)
          ++ content ++ pad ++ rest } := by
    rw [blobInit, Nat.mod_eq_of_lt hid, Nat.mod_eq_of_lt (by omega), Nat.add_comm payload,
      ← hcontent]
    have hcut : c.mem = used ++ word ++ (content ++ pad ++ rest) := by
      rw [hcmem]
      simp only [List.append_assoc]
    rw [BlobBuf.store_eq hcut rfl (by rw [hword, header_length])]
    simp only [List.append_assoc]
  have hfill : blobFillPad { c with mem := used ++ header false id (4 + content.length)
      ++ content ++ pad ++ rest } (c.buf + used.length)
      = some { c with mem := used ++ attrBytes false id content ++ rest } :=
    blobFillPad_eq rfl rfl hid (by omega) hpadlen
  refine ⟨{ c with mem := used ++ attrBytes false id content ++ rest }, content, rest, ?_,
    hc.of_length ?_, hchead, hcontent, rfl⟩
  · rw [blobAdd, hroom]
    simp only [hinit, Option.bind_some, hfill, Option.map_some]
  · rw [hcmem]
    simp only [List.length_append, attrBytes_length, hword, hcontent, hpadlen, padding,
      List.length_replicate]
    omega

/-! ## Open containers -/

/-- A container whose children are still being written, with the payload
bytes it has so far. -/
structure OpenAttr where
  extended : Bool
  id : Nat
  payload : Mem

/-- The bytes of a container that are final once it closes. -/
def OpenAttr.bytes (f : OpenAttr) : Mem :=
  header f.extended f.id (4 + f.payload.length) ++ f.payload

/-- The bytes of the containers around the innermost one. -/
def outerBytes : List OpenAttr → Mem
  | [] => []
  | f :: outer => outerBytes outer ++ header f.extended f.id (8 + f.payload.length) ++ f.payload

/-- A container header can be read back and its children are padded. -/
structure OpenAttr.Valid (f : OpenAttr) : Prop where
  id_lt : f.id < 2 ^ 7
  aligned : f.payload.length % 4 = 0

/-- Append complete attributes to an open container. -/
def OpenAttr.push (f : OpenAttr) (bs : Mem) : OpenAttr :=
  { f with payload := f.payload ++ bs }

/-- The used prefix of a buffer. -/
def usedBytes (f : OpenAttr) (outer : List OpenAttr) : Mem :=
  outerBytes outer ++ f.bytes

/-- The invariant of a buffer under construction. -/
structure Laid (b : BlobBuf) (f : OpenAttr) (outer : List OpenAttr) (spare : Mem) : Prop where
  sound : b.Sound
  mem_eq : b.mem = usedBytes f outer ++ spare
  head_eq : b.head = b.buf + (outerBytes outer).length
  valid : ∀ g ∈ f :: outer, g.Valid
  small : (usedBytes f outer).length < 2 ^ 24

@[simp] theorem OpenAttr.bytes_length (f : OpenAttr) : f.bytes.length = 4 + f.payload.length := by
  simp [OpenAttr.bytes]

theorem OpenAttr.push_push (f : OpenAttr) (bs cs : Mem) :
    (f.push bs).push cs = f.push (bs ++ cs) := by
  simp [OpenAttr.push]

theorem OpenAttr.Valid.push {f : OpenAttr} (h : f.Valid) {bs : Mem} (hbs : bs.length % 4 = 0) :
    (f.push bs).Valid := by
  refine ⟨h.id_lt, ?_⟩
  have := h.aligned
  simp only [OpenAttr.push, List.length_append]
  omega

theorem outerBytes_length_mod {outer : List OpenAttr} (h : ∀ g ∈ outer, g.Valid) :
    (outerBytes outer).length % 4 = 0 := by
  induction outer with
  | nil => rfl
  | cons f outer ih =>
      have hf := (h f List.mem_cons_self).aligned
      have := ih fun g hg => h g (List.mem_cons_of_mem f hg)
      simp only [outerBytes, List.length_append, header_length]
      omega

variable {b : BlobBuf} {f : OpenAttr} {outer : List OpenAttr} {spare : Mem}

theorem usedBytes_length (f : OpenAttr) (outer : List OpenAttr) :
    (usedBytes f outer).length = (outerBytes outer).length + 4 + f.payload.length := by
  simp only [usedBytes, List.length_append, OpenAttr.bytes_length]
  omega

theorem usedBytes_push_length (f : OpenAttr) (outer : List OpenAttr) (bs : Mem) :
    (usedBytes (f.push bs) outer).length = (usedBytes f outer).length + bs.length := by
  simp only [usedBytes_length, OpenAttr.push, List.length_append]
  omega

namespace Laid

theorem used_mod (h : Laid b f outer spare) : (usedBytes f outer).length % 4 = 0 := by
  have hf := (h.valid f List.mem_cons_self).aligned
  have := outerBytes_length_mod fun g hg => h.valid g (List.mem_cons_of_mem f hg)
  rw [usedBytes_length]
  omega

/-- The bytes at `buf->head`. -/
theorem ptr_head (h : Laid b f outer spare) :
    b.ptr b.head = header f.extended f.id (4 + f.payload.length) ++ (f.payload ++ spare) :=
  BlobBuf.ptr_eq (by rw [h.mem_eq, usedBytes, OpenAttr.bytes]; simp only [List.append_assoc])
    h.head_eq

theorem field_lt (h : Laid b f outer spare) : 4 + f.payload.length < 2 ^ 24 := by
  have := h.small
  rw [usedBytes_length] at this
  omega

theorem padLen_head (h : Laid b f outer spare) :
    blobPadLen (b.ptr b.head) = some (4 + f.payload.length) := by
  have hf := h.valid f List.mem_cons_self
  rw [h.ptr_head, blobPadLen_header hf.id_lt h.field_lt, alignUp_four_add,
    alignUp_four_of_mod hf.aligned]

/-- `blob_next(buf->head)` is the end of the used prefix. -/
theorem next_head (h : Laid b f outer spare) :
    b.head + (4 + f.payload.length) = b.buf + (usedBytes f outer).length := by
  rw [h.head_eq, usedBytes_length]
  omega

/-- Appending padded bytes behind the used prefix and counting them in the
innermost container keeps the invariant. -/
theorem push {b' : BlobBuf} {bs spare' : Mem} (h : Laid b f outer spare) (hsound : b'.Sound)
    (hhead : b'.head = b'.buf + (outerBytes outer).length) (hbs : bs.length % 4 = 0)
    (hsmall : (usedBytes f outer).length + bs.length < 2 ^ 24)
    (hmem : b'.mem = usedBytes (f.push bs) outer ++ spare') :
    Laid b' (f.push bs) outer spare' := by
  refine ⟨hsound, hmem, hhead, ?_, ?_⟩
  · intro g hg
    rcases List.mem_cons.mp hg with rfl | hg
    · exact (h.valid f List.mem_cons_self).push hbs
    · exact h.valid g (List.mem_cons_of_mem f hg)
  · rw [usedBytes_push_length]
    exact hsmall

end Laid

/-- The bytes of a buffer whose innermost container counts `len` bytes. -/
def looseBytes (len : Nat) (f : OpenAttr) (outer : List OpenAttr) : Mem :=
  outerBytes outer ++ (header f.extended f.id len ++ f.payload)

/-- The invariant of a buffer whose innermost container may end between two
multiples of four, as after `blob_put_raw`: it counts `len` bytes, and its
payload is taken with the bytes up to the next multiple. -/
structure Loose (b : BlobBuf) (len : Nat) (f : OpenAttr) (outer : List OpenAttr)
    (spare : Mem) : Prop where
  sound : b.Sound
  mem_eq : b.mem = looseBytes len f outer ++ spare
  len_eq : alignUp 4 len = 4 + f.payload.length
  head_eq : b.head = b.buf + (outerBytes outer).length
  valid : ∀ g ∈ f :: outer, g.Valid
  small : (usedBytes f outer).length < 2 ^ 24

theorem looseBytes_length (len : Nat) (f : OpenAttr) (outer : List OpenAttr) :
    (looseBytes len f outer).length = (usedBytes f outer).length := by
  simp only [looseBytes, usedBytes_length, List.length_append, header_length]
  omega

theorem Laid.loose (h : Laid b f outer spare) : Loose b (4 + f.payload.length) f outer spare :=
  have hf := (h.valid f List.mem_cons_self).aligned
  ⟨h.sound, h.mem_eq, by rw [alignUp_four_add, alignUp_four_of_mod hf], h.head_eq, h.valid,
    h.small⟩

namespace Loose

variable {len : Nat}

theorem used_mod (h : Loose b len f outer spare) : (looseBytes len f outer).length % 4 = 0 := by
  have hf := (h.valid f List.mem_cons_self).aligned
  have := outerBytes_length_mod fun g hg => h.valid g (List.mem_cons_of_mem f hg)
  rw [looseBytes_length, usedBytes_length]
  omega

theorem len_lt (h : Loose b len f outer spare) : len < 2 ^ 24 := by
  have hsmall := h.small
  have hlen := h.len_eq
  have := le_alignUp_four len
  rw [usedBytes_length] at hsmall
  omega

/-- `blob_pad_len(buf->head)` in memory that starts as the buffer does. -/
theorem padLen {b' : BlobBuf} {rest : Mem} (h : Loose b len f outer spare)
    (hmem : b'.mem = looseBytes len f outer ++ rest)
    (hhead : b'.head = b'.buf + (outerBytes outer).length) :
    blobPadLen (b'.ptr b'.head) = some (4 + f.payload.length) := by
  have hcut : b'.mem = outerBytes outer ++ (header f.extended f.id len ++ (f.payload ++ rest)) := by
    rw [hmem, looseBytes]
    simp only [List.append_assoc]
  rw [BlobBuf.ptr_eq hcut hhead,
    blobPadLen_header (h.valid f List.mem_cons_self).id_lt h.len_lt, h.len_eq]

theorem padLen_head (h : Loose b len f outer spare) :
    blobPadLen (b.ptr b.head) = some (4 + f.payload.length) := h.padLen h.mem_eq h.head_eq

/-- `blob_next(buf->head)` is the end of the used prefix. -/
theorem next_head (h : Loose b len f outer spare) :
    b.head + (4 + f.payload.length) = b.buf + (usedBytes f outer).length := by
  rw [h.head_eq, usedBytes_length]
  omega

/-- `blob_add` at `blob_next(buf->head)`, before any length is updated. -/
theorem blobAdd_eq (h : Loose b len f outer spare) {id payload : Nat} (hid : id < 2 ^ 7)
    (hsmall : 4 + payload < 2 ^ 24) :
    ∃ b' content spare', blobAdd b (b.head + (4 + f.payload.length)) id payload
        = some (some (b'.buf + (usedBytes f outer).length), b') ∧
      b'.Sound ∧ b'.head = b'.buf + (outerBytes outer).length ∧ content.length = payload ∧
      b'.mem = looseBytes len f outer ++ attrBytes false id content ++ spare' := by
  rw [h.next_head, ← looseBytes_length len]
  exact Blob.blobAdd_eq h.sound h.mem_eq h.used_mod h.head_eq hid hsmall

/-- Rewriting the length of `buf->head` once `bs` stands behind the used
prefix makes `bs` a part of the container. -/
theorem count (h : Loose b len f outer spare) {b' : BlobBuf} {bs spare' : Mem}
    (hsound : b'.Sound) (hhead : b'.head = b'.buf + (outerBytes outer).length)
    (hbs : bs.length % 4 = 0) (hsmall : (usedBytes f outer).length + bs.length < 2 ^ 24)
    (hmem : b'.mem = looseBytes len f outer ++ bs ++ spare') :
    ∃ b'', blobSetRawLen b' b'.head (4 + f.payload.length + bs.length) = some b'' ∧
      b''.buf = b'.buf ∧ Laid b'' (f.push bs) outer spare' := by
  have hf := h.valid f List.mem_cons_self
  have hlen := usedBytes_length f outer
  have hcut : b'.mem = outerBytes outer ++ header f.extended f.id len
      ++ (f.payload ++ bs ++ spare') := by
    rw [hmem, looseBytes]
    simp only [List.append_assoc]
  have hfield : 4 + f.payload.length + bs.length < 2 ^ 24 := by omega
  have hset := blobSetRawLen_eq hcut hhead hf.id_lt h.len_lt hfield
  have hmem' : outerBytes outer ++ header f.extended f.id (4 + f.payload.length + bs.length)
      ++ (f.payload ++ bs ++ spare') = usedBytes (f.push bs) outer ++ spare' := by
    simp only [usedBytes, OpenAttr.bytes, OpenAttr.push, List.length_append, List.append_assoc,
      Nat.add_assoc]
  refine ⟨_, hset, rfl, ⟨hsound.of_length ?_, hmem', hhead, ?_, ?_⟩⟩
  · rw [hcut]
    simp
  · intro g hg
    rcases List.mem_cons.mp hg with rfl | hg
    · exact hf.push hbs
    · exact h.valid g (List.mem_cons_of_mem f hg)
  · rw [usedBytes_push_length]
    exact hsmall

/-- `blob_new` appends an attribute whose payload is not written yet. -/
theorem blobNew (h : Loose b len f outer spare) {id payload : Nat} (hid : id < 2 ^ 7)
    (hsmall : (usedBytes f outer).length + (4 + alignUp 4 payload) < 2 ^ 24) :
    ∃ b' content spare', Blob.blobNew b id payload
        = some (some (b'.buf + (usedBytes f outer).length), b') ∧ content.length = payload ∧
      Laid b' (f.push (attrBytes false id content)) outer spare' := by
  have hle := le_alignUp_four payload
  obtain ⟨c, content, spare', hadd, hc, hchead, hcontent, hcmem⟩ :=
    @Loose.blobAdd_eq b f outer spare len h id payload hid (by omega)
  have hbytes : (attrBytes false id content).length = 4 + alignUp 4 payload := by
    rw [attrBytes_length, hcontent]
  have hheadptr : blobPadLen (c.ptr c.head) = some (4 + f.payload.length) :=
    h.padLen (by rw [hcmem, List.append_assoc]) hchead
  have hattrptr : blobPadLen (c.ptr (c.buf + (usedBytes f outer).length))
      = some (4 + alignUp 4 payload) := by
    have hcut : c.mem = looseBytes len f outer ++ (header false id (4 + content.length)
        ++ (content ++ padding content ++ spare')) := by
      rw [hcmem, attrBytes]
      simp only [List.append_assoc]
    rw [BlobBuf.ptr_eq hcut (by rw [looseBytes_length]), blobPadLen_header hid (by omega),
      alignUp_four_add, hcontent]
  obtain ⟨d, hset, hdbuf, hd⟩ := h.count hc hchead (attrBytes_length_mod false id content)
    (by omega) hcmem
  refine ⟨d, content, spare', ?_, hcontent, hd⟩
  rw [hbytes] at hset
  rw [Blob.blobNew, h.padLen_head]
  simp only [Option.bind_some, hadd, hheadptr, hattrptr, hset, Option.map_some, hdbuf]

end Loose

/-- `blob_add` at `blob_next(buf->head)`, before any length is updated. -/
theorem Laid.blobAdd_eq (h : Laid b f outer spare) {id payload : Nat} (hid : id < 2 ^ 7)
    (hsmall : 4 + payload < 2 ^ 24) :
    ∃ b' content spare', blobAdd b (b.head + (4 + f.payload.length)) id payload
        = some (some (b'.buf + (usedBytes f outer).length), b') ∧
      b'.Sound ∧ b'.head = b'.buf + (outerBytes outer).length ∧ content.length = payload ∧
      b'.mem = usedBytes f outer ++ attrBytes false id content ++ spare' :=
  h.loose.blobAdd_eq hid hsmall

/-- Rewriting the length of `buf->head` once `bs` stands behind the used
prefix makes `bs` a part of the container. -/
theorem Laid.count (h : Laid b f outer spare) {b' : BlobBuf} {bs spare' : Mem}
    (hsound : b'.Sound) (hhead : b'.head = b'.buf + (outerBytes outer).length)
    (hbs : bs.length % 4 = 0) (hsmall : (usedBytes f outer).length + bs.length < 2 ^ 24)
    (hmem : b'.mem = usedBytes f outer ++ bs ++ spare') :
    ∃ b'', blobSetRawLen b' b'.head (4 + f.payload.length + bs.length) = some b'' ∧
      b''.buf = b'.buf ∧ Laid b'' (f.push bs) outer spare' :=
  h.loose.count hsound hhead hbs hsmall hmem

/-- `blob_new` appends an attribute whose payload is not written yet. -/
theorem Laid.blobNew (h : Laid b f outer spare) {id payload : Nat} (hid : id < 2 ^ 7)
    (hsmall : (usedBytes f outer).length + (4 + alignUp 4 payload) < 2 ^ 24) :
    ∃ b' content spare', blobNew b id payload
        = some (some (b'.buf + (usedBytes f outer).length), b') ∧ content.length = payload ∧
      Laid b' (f.push (attrBytes false id content)) outer spare' :=
  h.loose.blobNew hid hsmall

/-- The used prefix up to bytes about to be pushed onto `f`, which the length
field of `f` counts already. -/
def beforePushed (f : OpenAttr) (outer : List OpenAttr) (len : Nat) : Mem :=
  outerBytes outer ++ header f.extended f.id (4 + (f.payload.length + len)) ++ f.payload

theorem beforePushed_length (f : OpenAttr) (outer : List OpenAttr) (len : Nat) :
    (beforePushed f outer len).length = (usedBytes f outer).length := by
  simp [beforePushed, usedBytes, OpenAttr.bytes]

theorem usedBytes_push (f : OpenAttr) (outer : List OpenAttr) (bs : Mem) :
    usedBytes (f.push bs) outer = beforePushed f outer bs.length ++ bs := by
  simp only [usedBytes, OpenAttr.bytes, OpenAttr.push, beforePushed, List.length_append,
    List.append_assoc]

/-- Storing over bytes that were pushed last. -/
theorem Laid.store_pushed {before old after bs : Mem} {p : Nat}
    (h : Laid b (f.push (before ++ old ++ after)) outer spare) (hlen : old.length = bs.length)
    (hp : p = b.buf + (usedBytes f outer).length + before.length) :
    ∃ b', b.store p bs = some b' ∧ b'.buf = b.buf ∧
      Laid b' (f.push (before ++ bs ++ after)) outer spare := by
  have hsame : (before ++ bs ++ after).length = (before ++ old ++ after).length := by
    simp only [List.length_append, hlen]
  have hcut : b.mem = beforePushed f outer (before ++ old ++ after).length ++ before ++ old
      ++ (after ++ spare) := by
    rw [h.mem_eq, usedBytes_push]
    simp only [List.append_assoc]
  have hp' : p = b.buf
      + (beforePushed f outer (before ++ old ++ after).length ++ before).length := by
    rw [hp, List.length_append, beforePushed_length, Nat.add_assoc]
  have hstore := BlobBuf.store_eq hcut hp' hlen
  refine ⟨_, hstore, rfl, ⟨h.sound.of_length ?_, ?_, h.head_eq, ?_, ?_⟩⟩
  · rw [hcut]
    simp only [List.length_append, hlen]
  · rw [usedBytes_push, hsame]
    simp only [List.append_assoc]
  · intro g hg
    rcases List.mem_cons.mp hg with rfl | hg
    · have hold := h.valid _ List.mem_cons_self
      refine ⟨hold.id_lt, ?_⟩
      have := hold.aligned
      simp only [OpenAttr.push, List.length_append] at this ⊢
      omega
    · exact h.valid g (List.mem_cons_of_mem _ hg)
  · have := h.small
    rw [usedBytes_push_length] at this ⊢
    omega

/-- Storing over part of the payload of the attribute that was pushed last. -/
theorem Laid.store_payload {extended : Bool} {id p : Nat} {before old after bs : Mem}
    (h : Laid b (f.push (attrBytes extended id (before ++ old ++ after))) outer spare)
    (hlen : old.length = bs.length)
    (hp : p = b.buf + (usedBytes f outer).length + 4 + before.length) :
    ∃ b', b.store p bs = some b' ∧ b'.buf = b.buf ∧
      Laid b' (f.push (attrBytes extended id (before ++ bs ++ after))) outer spare := by
  have hsame : (before ++ bs ++ after).length = (before ++ old ++ after).length := by
    simp only [List.length_append, hlen]
  have hcut : ∀ cs : Mem, (before ++ cs ++ after).length = (before ++ old ++ after).length →
      attrBytes extended id (before ++ cs ++ after)
        = header extended id (4 + (before ++ old ++ after).length) ++ before ++ cs
          ++ (after ++ padding (before ++ old ++ after)) := by
    intro cs hcs
    rw [attrBytes, padding, padding, hcs]
    simp only [List.append_assoc]
  rw [hcut old rfl] at h
  rw [hcut bs hsame]
  exact h.store_pushed hlen (by rw [hp, List.length_append, header_length]; omega)

/-! ## The encoder calls -/

/-- `blob_put` appends one attribute. -/
theorem Laid.blobPut (h : Laid b f outer spare) {id : Nat} {data : Mem} (hid : id < 2 ^ 7)
    (hsmall : (usedBytes f outer).length + (attrBytes false id data).length < 2 ^ 24) :
    ∃ b' attr spare', blobPut b id data = some (some attr, b') ∧
      Laid b' (f.push (attrBytes false id data)) outer spare' := by
  obtain ⟨c, content, spare', hnew, hcontent, hc⟩ :=
    @Laid.blobNew b f outer spare h id data.length hid (by rwa [attrBytes_length] at hsmall)
  have hc' : Laid c (f.push (attrBytes false id ([] ++ content ++ []))) outer spare' := by
    simpa using hc
  obtain ⟨d, hstore, -, hd⟩ := hc'.store_payload hcontent rfl
  refine ⟨d, c.buf + (usedBytes f outer).length, spare', ?_, by simpa using hd⟩
  rw [List.length_nil, Nat.add_zero] at hstore
  rw [Blob.blobPut, hnew]
  simp only [Option.bind_some, hstore, Option.map_some]

/-- `blob_put_raw` appends a non-empty sequence of complete attributes. -/
theorem Laid.blobPutRaw (h : Laid b f outer spare) {data : Mem} (hpos : 4 ≤ data.length)
    (hmod : data.length % 4 = 0) (hsmall : (usedBytes f outer).length + data.length < 2 ^ 24) :
    ∃ b' attr spare', blobPutRaw b data = some (some attr, b') ∧
      Laid b' (f.push data) outer spare' := by
  obtain ⟨c, content, spare', hadd, hc, hchead, hcontent, hcmem⟩ :=
    @Laid.blobAdd_eq b f outer spare h 0 (data.length - 4) (by decide) (by omega)
  have hbytes : (attrBytes false 0 content).length = data.length := by
    rw [attrBytes_length, hcontent, alignUp_four_of_mod (by omega)]
    omega
  have hheadptr : blobPadLen (c.ptr c.head) = some (4 + f.payload.length) := by
    have hf := h.valid f List.mem_cons_self
    have hcut : c.mem = outerBytes outer ++ (header f.extended f.id (4 + f.payload.length)
        ++ (f.payload ++ attrBytes false 0 content ++ spare')) := by
      rw [hcmem, usedBytes, OpenAttr.bytes]
      simp only [List.append_assoc]
    rw [BlobBuf.ptr_eq hcut hchead, blobPadLen_header hf.id_lt h.field_lt, alignUp_four_add,
      alignUp_four_of_mod hf.aligned]
  obtain ⟨d, hset, hdbuf, hd⟩ := h.count hc hchead (attrBytes_length_mod false 0 content)
    (by omega) hcmem
  have hd' : Laid d (f.push ([] ++ attrBytes false 0 content ++ [])) outer spare' := by
    simpa using hd
  obtain ⟨e, hstore, -, he⟩ := hd'.store_pushed hbytes rfl
  refine ⟨e, c.buf + (usedBytes f outer).length, spare', ?_, by simpa using he⟩
  rw [hbytes] at hset
  rw [hdbuf, List.length_nil, Nat.add_zero] at hstore
  rw [Blob.blobPutRaw, if_neg (by omega), h.padLen_head]
  simp only [Option.bind_some, hadd, hheadptr, hset, hstore, Option.map_some]

/-- `blob_nest_start` opens a container; the cookie is where its parent starts. -/
theorem Laid.blobNestStart (h : Laid b f outer spare) {id : Nat} (hid : id < 2 ^ 7)
    (hsmall : (usedBytes f outer).length + 4 < 2 ^ 24) :
    ∃ b' spare', blobNestStart b id = some (some (outerBytes outer).length, b') ∧
      Laid b' ⟨false, id, []⟩ (f :: outer) spare' := by
  obtain ⟨c, content, spare', hnew, hcontent, hc⟩ :=
    @Laid.blobNew b f outer spare h id 0 hid (by simpa [alignUp] using hsmall)
  obtain rfl : content = [] := List.length_eq_zero_iff.mp hcontent
  have hbytes : attrBytes false id [] = header false id 4 := rfl
  have hused : usedBytes (f.push (attrBytes false id [])) outer
      = usedBytes ⟨false, id, []⟩ (f :: outer) := by
    rw [usedBytes_push, hbytes]
    simp only [beforePushed, usedBytes, outerBytes, OpenAttr.bytes, header_length,
      List.length_nil, List.append_nil]
    congr 4
    omega
  refine ⟨{ c with head := c.buf + (usedBytes f outer).length }, spare', ?_,
    ⟨⟨hc.sound.block, hc.sound.alloc⟩, ?_, ?_, ?_, ?_⟩⟩
  · rw [Blob.blobNestStart, hnew, attrToOffset, h.head_eq, Nat.add_sub_cancel_left]
    rfl
  · rw [← hused]
    exact hc.mem_eq
  · simp only [outerBytes, usedBytes, OpenAttr.bytes, List.length_append, header_length,
      Nat.add_assoc]
  · intro g hg
    rcases List.mem_cons.mp hg with rfl | hg
    · exact ⟨hid, rfl⟩
    · exact h.valid g hg
  · rw [← hused]
    exact hc.small

/-- `blob_nest_end` closes the innermost container. -/
theorem Laid.blobNestEnd {g : OpenAttr} (h : Laid b g (f :: outer) spare) :
    ∃ b', blobNestEnd b (outerBytes outer).length = some b' ∧
      Laid b' (f.push g.bytes) outer spare := by
  have hg := h.valid g List.mem_cons_self
  have hf := h.valid f (List.mem_cons_of_mem g List.mem_cons_self)
  have hsmall := h.small
  have hlen := usedBytes_length g (f :: outer)
  simp only [outerBytes, List.length_append, header_length] at hlen
  have hhead : blobLen (b.ptr b.head) = some g.payload.length := by
    rw [h.ptr_head, blobLen_header hg.id_lt h.field_lt (by omega), Nat.add_sub_cancel_left]
  have hcut : b.mem = outerBytes outer ++ header f.extended f.id (8 + f.payload.length)
      ++ (f.payload ++ g.bytes ++ spare) := by
    rw [h.mem_eq, usedBytes, outerBytes]
    simp only [List.append_assoc]
  have hptr : blobPadLen (b.ptr (b.buf + (outerBytes outer).length))
      = some (8 + f.payload.length) := by
    have haligned := hf.aligned
    have hcut' : b.mem = outerBytes outer ++ (header f.extended f.id (8 + f.payload.length)
        ++ (f.payload ++ g.bytes ++ spare)) := by
      rw [hcut, List.append_assoc]
    rw [BlobBuf.ptr_eq hcut' rfl, blobPadLen_header hf.id_lt (by omega),
      alignUp_four_of_mod (by omega)]
  have hfield : 8 + f.payload.length + g.payload.length < 2 ^ 24 := by omega
  have hset := blobSetRawLen_eq hcut rfl hf.id_lt (by omega) hfield
  have hmem : outerBytes outer
      ++ header f.extended f.id (8 + f.payload.length + g.payload.length)
      ++ (f.payload ++ g.bytes ++ spare) = usedBytes (f.push g.bytes) outer ++ spare := by
    rw [usedBytes_push, beforePushed, OpenAttr.bytes_length]
    have : 8 + f.payload.length + g.payload.length
        = 4 + (f.payload.length + (4 + g.payload.length)) := by omega
    rw [this]
    simp only [List.append_assoc]
  refine ⟨{ b with mem := _, head := b.buf + (outerBytes outer).length }, ?_,
    ⟨⟨?_, h.sound.alloc⟩, hmem, rfl, ?_, ?_⟩⟩
  · rw [Blob.blobNestEnd, offsetToAttr, hptr, hhead]
    simp only [Option.bind_some, hset, Option.map_some]
  · have hblock := h.sound.block
    rw [hcut] at hblock
    simpa using hblock
  · intro k hk
    rcases List.mem_cons.mp hk with rfl | hk
    · exact hf.push (by rw [OpenAttr.bytes_length]; have := hg.aligned; omega)
    · exact h.valid k (List.mem_cons_of_mem g (List.mem_cons_of_mem f hk))
  · rw [usedBytes_length, OpenAttr.push, List.length_append, OpenAttr.bytes_length]
    omega

/-- `blob_buf_init` opens the root container. -/
theorem blobBufInit_eq (hsound : b.Sound) {id : Nat} (hid : id < 2 ^ 7) :
    ∃ b' spare', blobBufInit b id = some (true, b') ∧ Laid b' ⟨false, id, []⟩ [] spare' := by
  obtain ⟨c, content, spare', hadd, hc, hchead, hcontent, hcmem⟩ :=
    @Blob.blobAdd_eq { b with head := b.buf } ⟨hsound.block, hsound.alloc⟩ [] b.mem 0 id 0
      rfl rfl rfl hid (by decide)
  obtain rfl : content = [] := List.length_eq_zero_iff.mp hcontent
  refine ⟨c, spare', ?_, ⟨hc, ?_, hchead, ?_, ?_⟩⟩
  · simp only [List.length_nil, Nat.add_zero] at hadd
    rw [blobBufInit, hadd]
    rfl
  · rw [hcmem]
    rfl
  · intro g hg
    obtain rfl := List.mem_singleton.mp hg
    exact ⟨hid, rfl⟩
  · simp [usedBytes_length, outerBytes]

end Libubox.Blob
