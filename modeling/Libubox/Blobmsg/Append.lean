import Libubox.Blobmsg.Build

/-!
# What the message calls append

One specification for each call, over the invariant `Laid`: fields and closed
containers are pushed onto the innermost open container, opening one starts a
new innermost container whose payload is its name.
-/

namespace Libubox.Blobmsg

open Bytes Blob

variable {b : BlobBuf} {f : OpenAttr} {outer : List OpenAttr} {spare : Mem}

/-! ## Fields -/

/-- Setting the extended flag of the attribute that was pushed last. -/
theorem Laid.store_flag {type : Nat} {content : Mem}
    (h : Laid b (f.push (attrBytes false type content)) outer spare) (htype : type < 2 ^ 7)
    (hsmall : 4 + content.length < 2 ^ 24) :
    ∃ w b', idLen (b.ptr (b.buf + (usedBytes f outer).length)) = some w ∧
      b.store (b.buf + (usedBytes f outer).length) (beBytes 4 (w % 2 ^ 31 + 2 ^ 31)) = some b' ∧
      b'.buf = b.buf ∧ Laid b' (f.push (attrBytes true type content)) outer spare := by
  have hptr := ptr_pushed h
  rw [attrBytes, List.append_assoc, List.append_assoc] at hptr
  have hflag : beBytes 4 (headerWord false type (4 + content.length) % 2 ^ 31 + 2 ^ 31)
      = header true type (4 + content.length) := by
    rw [header]
    congr 1
    unfold headerWord
    simp only [Bool.false_eq_true, if_false, if_true]
    omega
  have hcut : Laid b (f.push ([] ++ header false type (4 + content.length)
      ++ (content ++ padding content))) outer spare := by
    rw [List.nil_append, ← List.append_assoc]
    exact h
  obtain ⟨b', hstore, hbuf, hlaid⟩ := @Laid.store_pushed b f outer spare _ _ _
    (header true type (4 + content.length)) _ hcut (by simp) rfl
  refine ⟨headerWord false type (4 + content.length), b', ?_, ?_, hbuf, ?_⟩
  · rw [hptr, idLen_header htype hsmall]
  · rw [hflag]
    exact hstore
  · rw [List.nil_append, ← List.append_assoc] at hlaid
    exact hlaid

/-- `blobmsg_new` appends an attribute with its name; the data is whatever the
block held. -/
theorem Loose.blobmsgNew {len : Nat} (h : Loose b len f outer spare) {type payload : Nat}
    {name : Option Mem} (htype : type ≤ blobmsgTypeLast) (hname : NameOk (name.getD []))
    (hsmall : (usedBytes f outer).length
      + (4 + blobmsgHdrlen (name.getD []).length + alignUp 4 payload) < 2 ^ 24) :
    ∃ b' data spare', blobmsgNew b type name payload
        = some (some (b'.buf + (usedBytes f outer).length,
            b'.buf + (usedBytes f outer).length + 4 + blobmsgHdrlen (name.getD []).length), b') ∧
      data.length = payload ∧
      Laid b' (f.push (fieldBytes type (name.getD []) data)) outer spare' := by
  generalize hn : name.getD [] = n at *
  have hhdr := lt_blobmsgHdrlen n.length
  have hmod := blobmsgHdrlen_mod n.length
  have htype' : type < 2 ^ 7 := by unfold blobmsgTypeLast at htype; omega
  have hle := le_alignUp_four payload
  have halign : alignUp 4 (blobmsgHdrlen n.length + payload)
      = blobmsgHdrlen n.length + alignUp 4 payload := by
    unfold alignUp
    omega
  obtain ⟨c, content, sparec, hnew, hcontent, hc⟩ := @Loose.blobNew b f outer spare len h type
    (blobmsgHdrlen n.length + payload) htype' (by omega)
  -- cut the payload into length, name, padding and data
  obtain ⟨word, chars, tail, rfl, hword, hchars⟩ :=
    @exists_three_parts _ content 2 (n.length + 1) (by omega)
  simp only [List.length_append] at hcontent
  obtain ⟨old, data, rfl, hold, hdata⟩ : ∃ old data : Mem, tail = old ++ data ∧
      old.length = blobmsgHdrlen n.length - 3 - n.length ∧ data.length = payload := by
    refine ⟨tail.take (blobmsgHdrlen n.length - 3 - n.length), tail.drop _,
      (List.take_append_drop _ _).symm, ?_, ?_⟩
    · rw [List.length_take]
      omega
    · rw [List.length_drop]
      omega
  obtain ⟨w, d, hidlen, hflag, hdbuf, hd⟩ := @Laid.store_flag c f outer sparec _ _ hc htype'
    (by simp only [List.length_append]; omega)
  -- the length of the name
  obtain ⟨e, hlenstore, hebuf, he⟩ := @Laid.store_payload d f outer sparec true type _ []
    word (chars ++ (old ++ data)) (beBytes 2 n.length) (by simpa using hd) (by simp [hword]) rfl
  -- its characters and its terminator
  obtain ⟨g, hnamestore, hgbuf, hg⟩ := @Laid.store_payload e f outer sparec true type _
    (beBytes 2 n.length) chars (old ++ data) (n ++ [0]) (by simpa using he) (by simp [hchars]) rfl
  have hpads : ([0] ++ old : Mem).length = (namePad n).length := by
    simp only [namePad, List.length_append, List.length_singleton, List.length_replicate]
    omega
  have hnamed : Laid g (f.push (attrBytes true type (nameHeader n ([0] ++ old) ++ data))) outer
      sparec := by
    simpa [nameHeader] using hg
  have hfits : NameFits n ([0] ++ old) := by
    refine ⟨hname.short, hname.noNul, ⟨old, rfl⟩, ?_⟩
    simp only [List.length_append, List.length_singleton]
    omega
  have hoffset : blobmsgDataOffset (g.ptr (g.buf + (usedBytes f outer).length))
      = some (blobmsgHdrlen n.length) := by
    have hwf : WellFormed type n ([0] ++ old) data.length :=
      ⟨htype, hfits, by omega⟩
    rw [ptr_pushed hnamed, attrBytes_frame hfits, List.append_assoc, hwf.blobmsgDataOffset_eq]
  -- and the padding once more, from the terminator on
  obtain ⟨k, hpadstore, hkbuf, hk⟩ := @Laid.store_payload g f outer sparec true type _
    (beBytes 2 n.length ++ n) ([0] ++ old) data (namePad n)
    (by simpa [nameHeader] using hnamed) hpads rfl
  refine ⟨k, data, sparec, ?_, hdata, hk⟩
  have hbuf : k.buf = c.buf := by rw [hkbuf, hgbuf, hebuf, hdbuf]
  rw [hdbuf, List.length_nil, Nat.add_zero] at hlenstore
  rw [hebuf, hdbuf, beBytes_length, Nat.add_assoc _ 4] at hnamestore
  rw [hgbuf, hebuf, hdbuf] at hpadstore hoffset
  rw [Blobmsg.blobmsgNew]
  simp only [hn]
  rw [hnew, Option.bind_some]
  simp only
  rw [hidlen, Option.bind_some, hflag, Option.bind_some, hlenstore, Option.bind_some, hnamestore,
    Option.bind_some, hoffset, Option.bind_some]
  have hzeros : List.replicate (c.buf + (usedBytes f outer).length + 4 + blobmsgHdrlen n.length
      - (c.buf + (usedBytes f outer).length + 6 + n.length)) (0 : UInt8) = namePad n := by
    rw [namePad]
    congr 1
    omega
  have hstart : c.buf + (usedBytes f outer).length + 4 + (beBytes 2 n.length ++ n).length
      = c.buf + (usedBytes f outer).length + 6 + n.length := by
    rw [List.length_append, beBytes_length]
    omega
  rw [hstart] at hpadstore
  rw [if_pos (by omega), hzeros, hpadstore, Option.map_some, hbuf]

theorem Laid.blobmsgNew (h : Laid b f outer spare) {type payload : Nat} {name : Option Mem}
    (htype : type ≤ blobmsgTypeLast) (hname : NameOk (name.getD []))
    (hsmall : (usedBytes f outer).length
      + (4 + blobmsgHdrlen (name.getD []).length + alignUp 4 payload) < 2 ^ 24) :
    ∃ b' data spare', blobmsgNew b type name payload
        = some (some (b'.buf + (usedBytes f outer).length,
            b'.buf + (usedBytes f outer).length + 4 + blobmsgHdrlen (name.getD []).length), b') ∧
      data.length = payload ∧
      Laid b' (f.push (fieldBytes type (name.getD []) data)) outer spare' :=
  Loose.blobmsgNew h.loose htype hname hsmall

/-- `blobmsg_add_field` appends one field. -/
theorem Laid.blobmsgAddField (h : Laid b f outer spare) {type : Nat} {name : Option Mem}
    {data : Mem} (htype : type ≤ blobmsgTypeLast) (hname : NameOk (name.getD []))
    (hsmall : (usedBytes f outer).length + (fieldBytes type (name.getD []) data).length < 2 ^ 24) :
    ∃ b' spare', blobmsgAddField b type name data = some (true, b') ∧
      Laid b' (f.push (fieldBytes type (name.getD []) data)) outer spare' := by
  rw [fieldBytes_length hname] at hsmall
  obtain ⟨c, old, sparec, hnew, hold, hc⟩ := Laid.blobmsgNew h htype hname hsmall
  rw [Blobmsg.blobmsgAddField, hnew, Option.bind_some]
  simp only
  by_cases hpos : 0 < data.length
  · obtain ⟨d, hstore, -, hd⟩ := @Laid.store_payload c f outer sparec true type _
      (nameHeader (name.getD []) (namePad (name.getD []))) old [] data
      (by simpa [fieldBytes] using hc) hold rfl
    rw [nameHeader_length hname.fits] at hstore
    refine ⟨d, sparec, by rw [if_pos hpos, hstore, Option.map_some], ?_⟩
    simpa [fieldBytes] using hd
  · obtain rfl : data = [] := List.length_eq_zero_iff.mp (by omega)
    obtain rfl : old = [] := List.length_eq_zero_iff.mp hold
    exact ⟨c, sparec, by rw [if_neg hpos], hc⟩

/-! ## Taking an attribute out of its container again -/

/-- Rewriting the length field of the innermost container, `bs` being what was
pushed last. -/
theorem Laid.setRawLen_head {bs : Mem} (h : Laid b (f.push bs) outer spare) {new : Nat}
    (hnew : new < 2 ^ 24) :
    blobSetRawLen b b.head new
      = some { b with
          mem := outerBytes outer ++ header f.extended f.id new ++ (f.payload ++ bs ++ spare) } := by
  have hid := (h.valid _ List.mem_cons_self).id_lt
  have hlt := h.field_lt
  have hcut : b.mem = outerBytes outer
      ++ header f.extended f.id (4 + (f.push bs).payload.length) ++ (f.payload ++ bs ++ spare) := by
    rw [h.mem_eq, usedBytes, OpenAttr.bytes]
    simp only [OpenAttr.push, List.append_assoc]
  exact blobSetRawLen_eq hcut h.head_eq hid hlt hnew

/-- The block keeps its size when a length field is rewritten. -/
theorem Laid.sound_setRawLen {bs : Mem} (h : Laid b (f.push bs) outer spare) (new : Nat) :
    BlobBuf.Sound { b with
      mem := outerBytes outer ++ header f.extended f.id new ++ (f.payload ++ bs ++ spare) } := by
  refine h.sound.of_length ?_
  rw [h.mem_eq, usedBytes, OpenAttr.bytes]
  simp only [OpenAttr.push, List.length_append, header_length]
  omega

/-- The containers stay valid without what was pushed last. -/
theorem Laid.valid_of_push {bs : Mem} (h : Laid b (f.push bs) outer spare)
    (hbs : bs.length % 4 = 0) : ∀ g ∈ f :: outer, g.Valid := by
  intro g hg
  rcases List.mem_cons.mp hg with rfl | hg
  · have hf := h.valid _ List.mem_cons_self
    refine ⟨hf.id_lt, ?_⟩
    have haligned := hf.aligned
    simp only [OpenAttr.push, List.length_append] at haligned
    omega
  · exact h.valid g (List.mem_cons_of_mem _ hg)

/-- With its old length field back, a container no longer counts what was
pushed last. -/
theorem Laid.uncount {bs : Mem} (h : Laid b (f.push bs) outer spare)
    (hbs : bs.length % 4 = 0) :
    ∃ b', blobSetRawLen b b.head (4 + f.payload.length) = some b' ∧ b'.buf = b.buf ∧
      Laid b' f outer (bs ++ spare) := by
  have hfield := h.field_lt
  have hpush : (f.push bs).payload.length = f.payload.length + bs.length := List.length_append
  refine ⟨_, Laid.setRawLen_head h (by omega), rfl,
    ⟨Laid.sound_setRawLen h (4 + f.payload.length), ?_, h.head_eq, Laid.valid_of_push h hbs, ?_⟩⟩
  · simp only [usedBytes, OpenAttr.bytes, List.append_assoc]
  · have := h.small
    rw [usedBytes_push_length] at this
    omega

/-! ## Containers -/

theorem fieldBytes_nil {type : Nat} {name : Mem} (h : NameOk name) :
    fieldBytes type name [] = OpenAttr.bytes ⟨true, type, nameHeader name (namePad name)⟩ := by
  have hpad : padding (nameHeader name (namePad name)) = [] :=
    padding_eq_nil (by rw [nameHeader_length h.fits]; exact blobmsgHdrlen_mod _)
  rw [fieldBytes, List.append_nil, attrBytes, hpad, List.append_nil, OpenAttr.bytes]

/-- `blobmsg_open_nested` opens a container; the cookie is where its parent
starts.  `blob_new` counts the name in the parent, which is taken back. -/
theorem Laid.blobmsgOpenNested (h : Laid b f outer spare) {name : Option Mem} (array : Bool)
    (hname : NameOk (name.getD []))
    (hsmall : (usedBytes f outer).length + (4 + blobmsgHdrlen (name.getD []).length) < 2 ^ 24) :
    ∃ b' spare', blobmsgOpenNested b name array = some (some (outerBytes outer).length, b') ∧
      Laid b' ⟨true, if array then blobmsgTypeArray else blobmsgTypeTable,
        nameHeader (name.getD []) (namePad (name.getD []))⟩ (f :: outer) spare' := by
  generalize hn : name.getD [] = n at *
  generalize htype : (if array then blobmsgTypeArray else blobmsgTypeTable) = type
  have htypele : type ≤ blobmsgTypeLast := by
    subst htype
    cases array <;> decide
  have hbytes := @fieldBytes_nil type n hname
  have hlen := @fieldBytes_length type n [] hname
  have hzero : alignUp 4 ([] : Mem).length = 0 := rfl
  obtain ⟨c, data, sparec, hnew, hdata, hc⟩ :=
    @Laid.blobmsgNew b f outer spare h type 0 (some n) htypele hname hsmall
  obtain rfl : data = [] := List.length_eq_zero_iff.mp hdata
  simp only [Option.getD_some] at hnew hc
  have hmod : (fieldBytes type n []).length % 4 = 0 := attrBytes_length_mod _ _ _
  have hfield := hc.field_lt
  have hheadlen := hc.padLen_head
  have hsub : unsignedSub (4 + (f.push (fieldBytes type n [])).payload.length)
      (blobmsgHdrlen n.length) = 8 + f.payload.length := by
    rw [unsignedSub_of_le] <;> simp only [OpenAttr.push, List.length_append] at * <;> omega
  have hset := @Laid.setRawLen_head c f outer sparec _ hc (8 + f.payload.length)
    (by simp only [OpenAttr.push, List.length_append] at hfield; omega)
  refine ⟨{ c with mem := _, head := c.buf + (usedBytes f outer).length }, sparec, ?_,
    ⟨⟨(Laid.sound_setRawLen hc (8 + f.payload.length)).block, hc.sound.alloc⟩, ?_, ?_, ?_, ?_⟩⟩
  · rw [Blobmsg.blobmsgOpenNested, htype, attrToOffset, h.head_eq, Nat.add_sub_cancel_left]
    simp only [hn]
    rw [hnew, Option.bind_some]
    simp only
    rw [hheadlen, Option.bind_some, hsub, hset, Option.map_some]
  · simp only [hbytes, usedBytes, outerBytes, List.append_assoc]
  · simp only [outerBytes, usedBytes, OpenAttr.bytes, List.length_append, header_length]
    omega
  · intro g hg
    rcases List.mem_cons.mp hg with rfl | hg
    · refine ⟨by unfold blobmsgTypeLast at htypele; simp only; omega, ?_⟩
      rw [nameHeader_length hname.fits]
      exact blobmsgHdrlen_mod _
    · exact Laid.valid_of_push hc hmod g hg
  · have := hc.small
    rw [usedBytes_push_length, hbytes] at this
    rw [usedBytes_length, outerBytes, List.length_append, List.length_append, header_length]
    rw [usedBytes_length, OpenAttr.bytes_length] at this
    omega

/-! ## String buffers -/

/-- Storing into the spare bytes. -/
theorem Laid.store_spare {before old after bs : Mem} {p : Nat}
    (h : Laid b f outer (before ++ old ++ after)) (hlen : old.length = bs.length)
    (hp : p = b.buf + (usedBytes f outer).length + before.length) :
    ∃ b', b.store p bs = some b' ∧ b'.buf = b.buf ∧ b'.head = b.head ∧
      Laid b' f outer (before ++ bs ++ after) := by
  have hcut : b.mem = usedBytes f outer ++ before ++ old ++ after := by
    rw [h.mem_eq]
    simp only [List.append_assoc]
  have hstore := @BlobBuf.store_eq b _ old after bs p hcut
    (by rw [hp, List.length_append, Nat.add_assoc]) hlen
  refine ⟨_, hstore, rfl, rfl, ⟨h.sound.of_length ?_, ?_, h.head_eq, h.valid, h.small⟩⟩
  · rw [hcut]
    simp only [List.length_append, hlen]
  · simp only [List.append_assoc]

/-- The spare bytes as `blob_next(buf->head)` sees them. -/
theorem Laid.ptr_spare (h : Laid b f outer spare) :
    b.ptr (b.buf + (usedBytes f outer).length) = spare :=
  BlobBuf.ptr_eq h.mem_eq rfl

theorem Laid.blobNextHead_eq (h : Laid b f outer spare) :
    blobNextHead b = some (b.buf + (usedBytes f outer).length) := by
  rw [blobNextHead, h.padLen_head, Option.map_some, h.next_head]

/-- Rewriting the length of an attribute that is not counted yet. -/
theorem Laid.setRawLen_spare {extended : Bool} {id len new : Nat} {rest : Mem}
    (h : Laid b f outer (header extended id len ++ rest)) (hid : id < 2 ^ 7)
    (hlen : len < 2 ^ 24) (hnew : new < 2 ^ 24) :
    ∃ b', blobSetRawLen b (b.buf + (usedBytes f outer).length) new = some b' ∧
      b'.buf = b.buf ∧ b'.head = b.head ∧ Laid b' f outer (header extended id new ++ rest) := by
  have hcut : b.mem = usedBytes f outer ++ header extended id len ++ rest := by
    rw [h.mem_eq, List.append_assoc]
  have hset := @blobSetRawLen_eq b _ rest extended id len _ new hcut rfl hid hlen hnew
  refine ⟨_, hset, rfl, rfl, ⟨h.sound.of_length ?_, ?_, h.head_eq, h.valid, h.small⟩⟩
  · rw [hcut]
    simp only [List.length_append, header_length]
  · simp only [List.append_assoc]

/-- A string buffer is open behind the used prefix: the frame of the string is
there with no data counted, and the caller may write to `m`. -/
def TextOpen (b : BlobBuf) (f : OpenAttr) (outer : List OpenAttr) (name m : Mem) : Prop :=
  Laid b f outer (frame blobmsgTypeString name (namePad name) 0 ++ m)

/-- Where the data of an open string buffer starts. -/
def textStart (b : BlobBuf) (f : OpenAttr) (outer : List OpenAttr) (name : Mem) : Nat :=
  b.buf + (usedBytes f outer).length + 4 + blobmsgHdrlen name.length

theorem wellFormed_text {name : Mem} {len : Nat} (hname : NameOk name)
    (hsmall : 4 + (blobmsgHdrlen name.length + len) < 2 ^ 24) :
    WellFormed blobmsgTypeString name (namePad name) len :=
  ⟨by decide, hname.fits, hsmall⟩

theorem blobmsgHdrlen_small {name : Mem} (hname : NameOk name) :
    4 + (blobmsgHdrlen name.length + 0) < 2 ^ 24 := by
  have := blobmsgHdrlen_le name.length
  have := hname.short
  omega

/-- `blobmsg_alloc_string_buffer` counts the reserved space and takes it back
out of both length fields. -/
theorem Loose.blobmsgAllocStringBuffer {len : Nat} (h : Loose b len f outer spare)
    {name : Option Mem} {maxlen : Nat} (hname : NameOk (name.getD []))
    (hsmall : (usedBytes f outer).length
      + (4 + blobmsgHdrlen (name.getD []).length + alignUp 4 maxlen) < 2 ^ 24) :
    ∃ b' m, blobmsgAllocStringBuffer b name maxlen
        = some (some (textStart b' f outer (name.getD [])), b') ∧
      TextOpen b' f outer (name.getD []) m ∧ maxlen ≤ m.length := by
  obtain ⟨c, data, sparec, hnew, hdata, hc⟩ :=
    @Loose.blobmsgNew b f outer spare _ h blobmsgTypeString maxlen name (by decide) hname hsmall
  generalize name.getD [] = n at *
  have hlen := @fieldBytes_length blobmsgTypeString n data hname
  have hmod : (fieldBytes blobmsgTypeString n data).length % 4 = 0 := attrBytes_length_mod _ _ _
  have hle := le_alignUp_four maxlen
  rw [hdata] at hlen
  have hwf := @wellFormed_text n data.length hname (by omega)
  have hfield := hc.field_lt
  have hpush : (f.push (fieldBytes blobmsgTypeString n data)).payload.length
      = f.payload.length + (fieldBytes blobmsgTypeString n data).length := List.length_append
  have hattr : blobPadLen (c.ptr (c.buf + (usedBytes f outer).length))
      = some (4 + blobmsgHdrlen n.length + alignUp 4 maxlen) := by
    rw [ptr_pushed hc, fieldBytes_eq hname, List.append_assoc, hwf.blobPadLen_eq, hdata]
  -- the container no longer counts the attribute
  obtain ⟨d, hset, hdbuf, hd⟩ := Laid.uncount hc hmod
  have hd : Laid d f outer
      (header true blobmsgTypeString (4 + (blobmsgHdrlen n.length + maxlen))
        ++ (nameHeader n (namePad n) ++ (data ++ padding data ++ sparec))) := by
    have hbytes : header true blobmsgTypeString (4 + (blobmsgHdrlen n.length + maxlen))
        ++ (nameHeader n (namePad n) ++ (data ++ padding data ++ sparec))
        = fieldBytes blobmsgTypeString n data ++ sparec := by
      simp only [fieldBytes_eq hname, frame, List.append_assoc, hdata]
    rw [hbytes]
    exact hd
  -- nor the attribute its data
  obtain ⟨e, heset, hebuf, -, he⟩ := @Laid.setRawLen_spare d f outer true blobmsgTypeString _
    (4 + blobmsgHdrlen n.length) _ hd (by decide) (by omega) (by omega)
  have hraw := @blobRawLen_header true blobmsgTypeString
    (4 + (blobmsgHdrlen n.length + maxlen))
    (nameHeader n (namePad n) ++ (data ++ padding data ++ sparec)) (by decide) (by omega)
  rw [← Laid.ptr_spare hd, hdbuf] at hraw
  rw [hdbuf] at heset
  refine ⟨e, data ++ padding data ++ sparec, ?_, ?_, ?_⟩
  · rw [Blobmsg.blobmsgAllocStringBuffer, hnew, Option.bind_some]
    simp only
    rw [hc.padLen_head, Option.bind_some, hattr, Option.bind_some, hpush,
      unsignedSub_of_le (by omega) (by omega), hlen]
    have hback : 4 + (f.payload.length + (4 + blobmsgHdrlen n.length + alignUp 4 maxlen))
        - (4 + blobmsgHdrlen n.length + alignUp 4 maxlen) = 4 + f.payload.length := by omega
    have hcut : 4 + (blobmsgHdrlen n.length + maxlen) - maxlen = 4 + blobmsgHdrlen n.length := by
      omega
    rw [hback, hset, Option.bind_some, hraw, Option.bind_some,
      unsignedSub_of_le (by omega) (by omega), hcut, heset, Option.map_some, textStart, hebuf, hdbuf]
  · unfold TextOpen
    simpa [frame] using he
  · rw [List.length_append, List.length_append]
    omega

theorem Laid.blobmsgAllocStringBuffer (h : Laid b f outer spare) {name : Option Mem}
    {maxlen : Nat} (hname : NameOk (name.getD []))
    (hsmall : (usedBytes f outer).length
      + (4 + blobmsgHdrlen (name.getD []).length + alignUp 4 maxlen) < 2 ^ 24) :
    ∃ b' m, blobmsgAllocStringBuffer b name maxlen
        = some (some (textStart b' f outer (name.getD [])), b') ∧
      TextOpen b' f outer (name.getD []) m ∧ maxlen ≤ m.length :=
  Loose.blobmsgAllocStringBuffer h.loose hname hsmall

/-- What the accessors say about an open string buffer. -/
theorem TextOpen.accessors {n m : Mem} (h : TextOpen b f outer n m) (hname : NameOk n) :
    blobPadLen (b.ptr (b.buf + (usedBytes f outer).length)) = some (4 + blobmsgHdrlen n.length) ∧
      blobRawLen (b.ptr (b.buf + (usedBytes f outer).length))
        = some (4 + blobmsgHdrlen n.length) ∧
      blobmsgDataAt b (b.buf + (usedBytes f outer).length) = some (textStart b f outer n) ∧
      b.ptr (textStart b f outer n) = m := by
  have hptr := Laid.ptr_spare h
  have hwf := wellFormed_text hname (blobmsgHdrlen_small hname)
  refine ⟨?_, ?_, ?_, ?_⟩
  · rw [hptr, hwf.blobPadLen_eq]
    rfl
  · rw [hptr, frame, List.append_assoc, blobRawLen_header (by decide) hwf.small, Nat.add_zero]
  · rw [blobmsgDataAt, hptr, hwf.blobmsgDataOffset_eq, Option.map_some, textStart]
  · have hcut : b.mem = (usedBytes f outer
        ++ frame blobmsgTypeString n (namePad n) 0) ++ m := by
      rw [h.mem_eq, List.append_assoc]
    refine BlobBuf.ptr_eq hcut ?_
    rw [List.length_append, frame_length hname.fits, textStart]
    omega

/-- Growing the block adds spare bytes. -/
theorem Laid.blobBufGrow (h : Laid b f outer spare) (required : Nat) :
    ∃ b' zeros, Blob.blobBufGrow b required = (true, b') ∧ required ≤ zeros.length ∧
      Laid b' f outer (spare ++ zeros) := by
  obtain ⟨new, rest, hgrow, hsound⟩ := @blobBufGrow_eq b h.sound _ required h.head_eq
  refine ⟨_, List.replicate ((required / 256 + 1) * 256) 0, hgrow, ?_,
    ⟨hsound, ?_, rfl, h.valid, h.small⟩⟩
  · rw [List.length_replicate]
    omega
  · simp only [h.mem_eq, List.append_assoc]

/-- `blobmsg_realloc_string_buffer` makes room without touching what is there. -/
theorem TextOpen.realloc {n m : Mem} {maxlen : Nat} (h : TextOpen b f outer n m)
    (hname : NameOk n) (hmax : maxlen < 2 ^ 31) :
    ∃ b' more, blobmsgReallocStringBuffer b maxlen = some (textStart b' f outer n, b') ∧
      TextOpen b' f outer n (m ++ more) ∧ maxlen ≤ (m ++ more).length := by
  obtain ⟨hpad, -, hdata, -⟩ := h.accessors hname
  have hframe := @frame_length blobmsgTypeString 0 n (namePad n) hname.fits
  have hlen : b.buflen
      = (usedBytes f outer).length + (4 + blobmsgHdrlen n.length) + m.length := by
    rw [BlobBuf.buflen, h.mem_eq, List.length_append, List.length_append, hframe]
    omega
  have hroom : (maxlen : Int) - ((b.buflen : Int)
      - ((usedBytes f outer).length + (4 + blobmsgHdrlen n.length) : Nat))
      = (maxlen : Int) - m.length := by
    rw [hlen]
    omega
  rw [Blobmsg.blobmsgReallocStringBuffer, Laid.blobNextHead_eq h, Option.bind_some, hpad,
    Option.bind_some, attrToOffset, Nat.add_sub_cancel_left]
  simp only
  rw [hroom]
  have hneeded : Int.bmod ((maxlen : Int) - m.length) (2 ^ 32) ≤ 0 → maxlen ≤ m.length := by
    intro hle
    by_contra hlt
    obtain ⟨k, hk⟩ : ∃ k : Nat, (maxlen : Int) - m.length = k :=
      ⟨maxlen - m.length, by omega⟩
    rw [hk, intBmod_natCast (by omega)] at hle
    omega
  have hgrown : maxlen ≤ m.length + (Int.bmod ((maxlen : Int) - m.length) (2 ^ 32)).toNat
      ∨ maxlen ≤ m.length := by
    by_cases hle : maxlen ≤ m.length
    · exact Or.inr hle
    · left
      obtain ⟨k, hk⟩ : ∃ k : Nat, (maxlen : Int) - m.length = k :=
        ⟨maxlen - m.length, by omega⟩
      rw [hk, intBmod_natCast (by omega)]
      omega
  by_cases hreq : Int.bmod ((maxlen : Int) - m.length) (2 ^ 32) ≤ 0
  · refine ⟨b, [], ?_, by rw [List.append_nil]; exact h,
      by rw [List.append_nil]; exact hneeded hreq⟩
    rw [if_pos hreq, hdata, Option.map_some]
  · obtain ⟨c, zeros, hgrow, hzeros, hc⟩ :=
      Laid.blobBufGrow h (Int.bmod ((maxlen : Int) - m.length) (2 ^ 32)).toNat
    have hc' : TextOpen c f outer n (m ++ zeros) := by
      unfold TextOpen
      rw [← List.append_assoc]
      exact hc
    obtain ⟨-, -, hdata', -⟩ := hc'.accessors hname
    refine ⟨c, zeros, ?_, hc', ?_⟩
    · rw [if_neg hreq, hgrow, Laid.blobNextHead_eq hc, Option.bind_some, hdata', Option.map_some]
    · rw [List.length_append]
      rcases hgrown with hle | hle <;> omega

/-- The caller writes into the buffer it was handed. -/
theorem TextOpen.store {n m bs : Mem} {off : Nat} (h : TextOpen b f outer n m)
    (hname : NameOk n) (hfit : off + bs.length ≤ m.length) :
    ∃ b', b.store (textStart b f outer n + off) bs = some b' ∧
      textStart b' f outer n = textStart b f outer n ∧
      TextOpen b' f outer n (overwrite m off bs) := by
  obtain ⟨before, old, after, rfl, hbefore, hold⟩ := exists_three_parts hfit
  have hframe := @frame_length blobmsgTypeString 0 n (namePad n) hname.fits
  have hcut : Laid b f outer
      (frame blobmsgTypeString n (namePad n) 0 ++ before ++ old ++ after) := by
    simpa [TextOpen] using h
  obtain ⟨c, hstore, hbuf, -, hc⟩ := @Laid.store_spare b f outer _ old after bs
    (textStart b f outer n + off) hcut hold
    (by rw [List.length_append, hframe, textStart]; omega)
  refine ⟨c, hstore, by rw [textStart, textStart, hbuf], ?_⟩
  rw [overwrite_append hbefore.symm hold]
  simpa [TextOpen] using hc

theorem Laid.rawLen_head (h : Laid b f outer spare) :
    blobRawLen (b.ptr b.head) = some (4 + f.payload.length) := by
  have hf := h.valid f List.mem_cons_self
  rw [h.ptr_head, blobRawLen_header hf.id_lt h.field_lt]

/-- `blob_fill_pad` of an attribute that is not counted yet.  The block ends
on a multiple of four, so the padding lies inside it. -/
theorem Laid.blobFillPad {extended : Bool} {id : Nat} {content rest : Mem}
    (h : Laid b f outer (header extended id (4 + content.length) ++ (content ++ rest)))
    (hid : id < 2 ^ 7) (hsmall : 4 + content.length < 2 ^ 24) :
    ∃ b' spare', Blob.blobFillPad b (b.buf + (usedBytes f outer).length) = some b' ∧
      b'.buf = b.buf ∧ b'.head = b.head ∧
      Laid b' f outer (attrBytes extended id content ++ spare') := by
  have hpadlen : (padding content).length = alignUp 4 content.length - content.length :=
    List.length_replicate
  have hroom : (padding content).length ≤ rest.length := by
    have hblock := h.sound.block
    have hused := h.used_mod
    have hlt := alignUp_four_lt content.length
    have hmod := alignUp_four_mod content.length
    rw [h.mem_eq] at hblock
    simp only [List.length_append, header_length] at hblock
    omega
  obtain ⟨old, after, rfl, hold⟩ : ∃ old after : Mem, rest = old ++ after ∧
      old.length = (padding content).length :=
    ⟨rest.take (padding content).length, rest.drop (padding content).length,
      (List.take_append_drop _ _).symm, by rw [List.length_take]; omega⟩
  have hmem : b.mem = usedBytes f outer ++ header extended id (4 + content.length)
      ++ content ++ old ++ after := by
    rw [h.mem_eq]
    simp only [List.append_assoc]
  have hfill := @blobFillPad_eq b _ content old after extended id _ hmem rfl hid hsmall hold
  refine ⟨_, after, hfill, rfl, rfl,
    ⟨h.sound.of_length ?_, by simp only [List.append_assoc], h.head_eq, h.valid, h.small⟩⟩
  rw [hmem, attrBytes]
  simp only [List.length_append, hold]
  omega

/-- `blobmsg_add_string_buffer` counts the text and its terminator in both
length fields. -/
theorem TextOpen.add {n text rest : Mem} (h : TextOpen b f outer n (text ++ 0 :: rest))
    (hname : NameOk n) (htext : 0 ∉ text)
    (hsmall : (usedBytes f outer).length
      + (fieldBytes blobmsgTypeString n (text ++ [0])).length < 2 ^ 24) :
    ∃ b' spare', blobmsgAddStringBuffer b = some b' ∧
      Laid b' (f.push (fieldBytes blobmsgTypeString n (text ++ [0]))) outer spare' := by
  obtain ⟨-, hraw, hdata, hptr⟩ := h.accessors hname
  have hlen := @fieldBytes_length blobmsgTypeString n (text ++ [0]) hname
  have hle := le_alignUp_four (text ++ [0]).length
  have htextlen : (text ++ [0]).length = text.length + 1 := List.length_append
  have hcontent : (nameHeader n (namePad n) ++ (text ++ [0])).length
      = blobmsgHdrlen n.length + (text.length + 1) := by
    rw [List.length_append, nameHeader_length hname.fits, htextlen]
  have hlaid : Laid b f outer (header true blobmsgTypeString (4 + blobmsgHdrlen n.length)
      ++ (nameHeader n (namePad n) ++ (text ++ [0]) ++ rest)) := by
    simpa [TextOpen, frame] using h
  -- the attribute counts its data, and its padding is cleared
  obtain ⟨c, hset, hcbuf, hchead, hc⟩ := @Laid.setRawLen_spare b f outer true blobmsgTypeString _
    (4 + (nameHeader n (namePad n) ++ (text ++ [0])).length) _ hlaid (by decide) (by omega)
    (by omega)
  obtain ⟨d, spared, hfill, hdbuf, hdhead, hd⟩ :=
    Laid.blobFillPad hc (by decide) (by omega)
  rw [← fieldBytes] at hd
  have hattr : blobPadLen (d.ptr (d.buf + (usedBytes f outer).length))
      = some (fieldBytes blobmsgTypeString n (text ++ [0])).length := by
    rw [Laid.ptr_spare hd, fieldBytes, blobPadLen_attrBytes (by decide) (by omega)]
  -- and the container counts the attribute
  obtain ⟨e, heset, -, he⟩ := @Laid.count d f outer _ hd d _ spared hd.sound hd.head_eq
    (attrBytes_length_mod true blobmsgTypeString _) hsmall
    (by rw [hd.mem_eq, ← List.append_assoc]; rfl)
  refine ⟨e, spared, ?_, he⟩
  have hsum : 4 + blobmsgHdrlen n.length + (text.length + 1)
      = 4 + (nameHeader n (namePad n) ++ (text ++ [0])).length := by omega
  rw [hcbuf] at hfill
  rw [hdbuf, hcbuf] at hattr
  rw [Blobmsg.blobmsgAddStringBuffer, Laid.blobNextHead_eq h, Option.bind_some, hdata,
    Option.bind_some, hptr, cString_append htext, Option.bind_some, hraw, Option.bind_some, hsum,
    hset, Option.bind_some, hfill, Option.bind_some, Laid.rawLen_head hd, Option.bind_some, hattr,
    Option.bind_some, ← heset]
  rfl

end Libubox.Blobmsg
