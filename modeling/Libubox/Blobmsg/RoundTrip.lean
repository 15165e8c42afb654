import Libubox.Blobmsg.Append
import Libubox.Blobmsg.Message

/-!
# What a message is built from is what a walk finds

A program over one message buffer is a value of `Calls`: fields, string
buffers and tables or arrays.  Running it keeps `Laid`, and the bytes it
appends hold the elements it stands for (`runCalls_laid`).  With
`readMsg_holds` this is the round trip.
-/

namespace Libubox.Blobmsg

open Bytes Blob

/-! ## Programs -/

/-- One call that adds one field.  `blob` adds the attribute at `attr` of
another message, which holds `e` there. -/
inductive Field where
  | u8 (name : Option Mem) (val : UInt8)
  | u16 (name : Option Mem) (val : UInt16)
  | u32 (name : Option Mem) (val : UInt32)
  | u64 (name : Option Mem) (val : UInt64)
  | string (name : Option Mem) (str : Mem)
  | blob (attr : Mem) (e : Element)

/-- Between the allocation of a string buffer and its end: the caller writes
at an offset, or asks for more room. -/
inductive TextStep where
  | write (off : Nat) (bs : Mem)
  | realloc (maxlen : Nat)

/-- Calls on one message, in order.  `text` is a string buffer together with
the text that is `left` in it. -/
inductive Calls where
  | done
  | add (field : Field) (next : Calls)
  | text (name : Option Mem) (maxlen : Nat) (steps : List TextStep) (left : Mem) (next : Calls)
  | nest (name : Option Mem) (array : Bool) (body next : Calls)

/-- Make the call. -/
def Field.run (b : BlobBuf) : Field → Option (Bool × BlobBuf)
  | u8 name val => blobmsgAddU8 b name val
  | u16 name val => blobmsgAddU16 b name val
  | u32 name val => blobmsgAddU32 b name val
  | u64 name val => blobmsgAddU64 b name val
  | string name str => blobmsgAddString b name str
  | blob attr _ => blobmsgAddBlob b attr

/-- Run the steps on the string buffer at `data`. -/
def runText (b : BlobBuf) (data : Nat) : List TextStep → Option BlobBuf
  | [] => some b
  | .write off bs :: steps => (b.store (data + off) bs).bind fun b => runText b data steps
  | .realloc maxlen :: steps =>
      (blobmsgReallocStringBuffer b maxlen).bind fun (data, b) => runText b data steps

/-- Run the calls; `none` is a fault or a reported failure. -/
def runCalls (b : BlobBuf) : Calls → Option BlobBuf
  | .done => some b
  | .add field next => (field.run b).bind fun (ok, b) => if ok then runCalls b next else none
  | .text name maxlen steps _ next =>
      (blobmsgAllocStringBuffer b name maxlen).bind fun (data, b) =>
        data.bind fun data =>
          (runText b data steps).bind fun b =>
            (blobmsgAddStringBuffer b).bind fun b => runCalls b next
  | .nest name array body next =>
      (blobmsgOpenNested b name array).bind fun (cookie, b) =>
        cookie.bind fun cookie =>
          (runCalls b body).bind fun b =>
            (blobNestEnd b cookie).bind fun b => runCalls b next

/-- `blobmsg_buf_init` and then the calls. -/
def encode (b : BlobBuf) (calls : Calls) : Option BlobBuf :=
  (blobBufInit b blobmsgTypeTable).bind fun (ok, b) => if ok then runCalls b calls else none

/-! ## What they stand for -/

/-- The element a call adds. -/
def Field.element : Field → Element
  | u8 name val => .data blobmsgTypeInt8 (name.getD []) [val]
  | u16 name val => .data blobmsgTypeInt16 (name.getD []) (beBytes 2 val.toNat)
  | u32 name val => .data blobmsgTypeInt32 (name.getD []) (beBytes 4 val.toNat)
  | u64 name val => .data blobmsgTypeInt64 (name.getD []) (beBytes 8 val.toNat)
  | string name str => .data blobmsgTypeString (name.getD []) (str ++ [0])
  | blob _ e => e

/-- What the calls add to the container they run in. -/
def Calls.elements : Calls → List Element
  | .done => []
  | .add field next => field.element :: next.elements
  | .text name _ _ left next =>
      .data blobmsgTypeString (name.getD []) (left ++ [0]) :: next.elements
  | .nest name array body next => .nest array (name.getD []) body.elements :: next.elements

/-- The largest encoded size on the way, from `used` bytes on: a string buffer
counts with the space reserved for it, then with its text. -/
def Calls.peak (used : Nat) : Calls → Nat
  | .done => used
  | .add field next => next.peak (used + field.element.size)
  | .text name maxlen _ left next =>
      max (used + (4 + blobmsgHdrlen (name.getD []).length + alignUp 4 maxlen))
        (next.peak (used + (Element.data blobmsgTypeString (name.getD []) (left ++ [0])).size))
  | .nest name array body next =>
      max (body.peak (used + (4 + blobmsgHdrlen (name.getD []).length)))
        (next.peak (used + (Element.nest array (name.getD []) body.elements).size))

/-- What the caller knows about a string buffer: the bytes it wrote, in all
the room it was given so far. -/
def TextStep.known (room : List (Option UInt8)) : TextStep → List (Option UInt8)
  | write off bs => overwrite room off (bs.map some)
  | realloc maxlen => room ++ List.replicate (maxlen - room.length) none

/-- Writes stay inside the room, and a request fits the `int` lengths. -/
def TextStep.Valid (room : List (Option UInt8)) : TextStep → Prop
  | write off bs => off + bs.length ≤ room.length
  | realloc maxlen => maxlen + 2 ^ 25 ≤ 2 ^ 31

/-- The steps are valid one after the other and leave `left` at the front. -/
def TextLeft (left : Mem) : List (Option UInt8) → List TextStep → Prop
  | room, [] => ∃ more, room = (left ++ [0]).map some ++ more
  | room, step :: steps => step.Valid room ∧ TextLeft left (step.known room) steps

/-- Names and strings are C strings, and what is copied is an attribute of a
well-formed message. -/
def Field.Valid : Field → Prop
  | u8 name _ => NameOk (name.getD [])
  | u16 name _ => NameOk (name.getD [])
  | u32 name _ => NameOk (name.getD [])
  | u64 name _ => NameOk (name.getD [])
  | string name str => NameOk (name.getD []) ∧ 0 ∉ str
  | blob attr e => AttrOf e attr

def Calls.Valid : Calls → Prop
  | .done => True
  | .add field next => field.Valid ∧ next.Valid
  | .text name maxlen steps left next =>
      NameOk (name.getD []) ∧ 0 ∉ left ∧ TextLeft left (List.replicate maxlen none) steps ∧
        next.Valid
  | .nest name _ body next => NameOk (name.getD []) ∧ body.Valid ∧ next.Valid

theorem le_peak (calls : Calls) : ∀ used, used + sizes calls.elements ≤ calls.peak used := by
  induction calls with
  | done => exact fun used => Nat.le_refl _
  | add field next ih =>
      intro used
      have := ih (used + field.element.size)
      simp only [Calls.elements, sizes, Calls.peak]
      omega
  | text name maxlen steps left next ih =>
      intro used
      have := ih (used + (Element.data blobmsgTypeString (name.getD []) (left ++ [0])).size)
      simp only [Calls.elements, sizes, Calls.peak]
      omega
  | nest name array body next ihBody ih =>
      intro used
      have := ih (used + (Element.nest array (name.getD []) body.elements).size)
      simp only [Calls.elements, sizes, Calls.peak]
      omega

/-! ## Fields -/

variable {b : BlobBuf} {f : OpenAttr} {outer : List OpenAttr} {spare : Mem}

/-- The bytes of a field hold its element. -/
theorem holds_fieldBytes {type : Nat} {name data : Mem} (htype : type ≤ blobmsgTypeLast)
    (hname : NameOk name) (hdata : DataFits type data)
    (hsmall : (fieldBytes type name data).length < 2 ^ 24) :
    Holds [.data type name data] (fieldBytes type name data) := by
  have hle := le_alignUp_four data.length
  rw [fieldBytes_length hname] at hsmall
  have hwf : WellFormed type name (namePad name) data.length := ⟨htype, hname.fits, by omega⟩
  have hpad : (padding data).length = alignUp 4 data.length - data.length := List.length_replicate
  have h := Holds.data hwf hdata hpad Holds.nil
  rw [List.append_nil, ← fieldBytes_eq hname] at h
  exact h

/-- Adding a field of plain data. -/
theorem addField_laid (h : Laid b f outer spare) {type : Nat} {name : Option Mem} {data : Mem}
    (htype : type ≤ blobmsgTypeLast) (hname : NameOk (name.getD [])) (hdata : DataFits type data)
    (hsize : (usedBytes f outer).length + (Element.data type (name.getD []) data).size < 2 ^ 24) :
    ∃ b' bs spare', blobmsgAddField b type name data = some (true, b') ∧
      Laid b' (f.push bs) outer spare' ∧ Holds [.data type (name.getD []) data] bs := by
  have hlen := @fieldBytes_length type (name.getD []) data hname
  rw [Element.size, ← hlen] at hsize
  obtain ⟨c, sparec, hadd, hc⟩ := Laid.blobmsgAddField h htype hname hsize
  exact ⟨c, _, sparec, hadd, hc, holds_fieldBytes htype hname hdata (by omega)⟩

/-- Adding an attribute of another message. -/
theorem addBlob_laid (h : Laid b f outer spare) {attr : Mem} {e : Element} (he : AttrOf e attr)
    (hsize : (usedBytes f outer).length + e.size < 2 ^ 24) :
    ∃ b' bs spare', blobmsgAddBlob b attr = some (true, b') ∧
      Laid b' (f.push bs) outer spare' ∧ Holds [e] bs := by
  obtain ⟨es, bs, rest, hholds, -, rfl⟩ := he
  cases hholds with
  | @data type name namePad data pad tail _ wf fits hpad htail =>
      have hbytes : frame type name namePad data.length ++ (data ++ pad) ++ tail ++ rest
          = frame type name namePad data.length ++ (data ++ (pad ++ tail ++ rest)) := by
        simp only [List.append_assoc]
      have hname : NameOk ((some name).getD []) := ⟨wf.name_fits.short, wf.name_fits.noNul⟩
      obtain ⟨c, bs, sparec, hadd, hc⟩ := addField_laid h wf.type_le hname fits hsize
      refine ⟨c, bs, sparec, ?_, hc⟩
      rw [hbytes, blobmsgAddBlob, wf.blobId_eq, Option.bind_some, wf.cString_name,
        Option.bind_some, blobmsgDataBytes_frame wf, Option.bind_some, hadd]
  | @nest array name namePad body tail children _ wf inner htail =>
      have hname : NameOk ((some name).getD []) := ⟨wf.name_fits.short, wf.name_fits.noNul⟩
      have hlen := @fieldBytes_length (containerType array) name body hname
      rw [alignUp_four_of_mod inner.length_mod] at hlen
      rw [Element.size, ← inner.length_eq] at hsize
      obtain ⟨c, sparec, hadd, hc⟩ := @Laid.blobmsgAddField b f outer spare h _ (some name)
        body wf.type_le hname (by rw [Option.getD_some]; omega)
      refine ⟨c, _, sparec, ?_, hc, ?_⟩
      · rw [List.append_assoc, List.append_assoc, blobmsgAddBlob, wf.blobId_eq, Option.bind_some,
          wf.cString_name, Option.bind_some, blobmsgDataBytes_frame wf, Option.bind_some, hadd]
      · rw [Option.getD_some] at hname ⊢
        have hwf : WellFormed (containerType array) name (Blobmsg.namePad name) body.length :=
          ⟨wf.type_le, hname.fits, wf.small⟩
        have hnest := Holds.nest hwf inner Holds.nil
        rw [fieldBytes_eq hname, padding_eq_nil inner.length_mod, List.append_nil]
        rwa [List.append_nil] at hnest

/-- Every field call appends its element. -/
theorem Field.run_laid (h : Laid b f outer spare) {field : Field} (hvalid : field.Valid)
    (hsize : (usedBytes f outer).length + field.element.size < 2 ^ 24) :
    ∃ b' bs spare', field.run b = some (true, b') ∧ Laid b' (f.push bs) outer spare' ∧
      Holds [field.element] bs := by
  cases field with
  | u8 name val =>
      exact @addField_laid b f outer spare h blobmsgTypeInt8 name [val] (by decide) hvalid
        (by simp [DataFits]) hsize
  | u16 name val =>
      exact @addField_laid b f outer spare h blobmsgTypeInt16 name (beBytes 2 val.toNat) (by decide) hvalid
        (by simp [DataFits]) hsize
  | u32 name val =>
      exact @addField_laid b f outer spare h blobmsgTypeInt32 name (beBytes 4 val.toNat) (by decide) hvalid
        (by simp [DataFits]) hsize
  | u64 name val =>
      exact @addField_laid b f outer spare h blobmsgTypeInt64 name (beBytes 8 val.toNat) (by decide) hvalid
        (by simp [DataFits]) hsize
  | string name str =>
      exact @addField_laid b f outer spare h blobmsgTypeString name (str ++ [0]) (by decide) hvalid.1
        (Or.inr (Or.inl ⟨rfl, by simp⟩)) hsize
  | blob attr e => exact @addBlob_laid b f outer spare h attr e hvalid hsize

/-! ## String buffers -/

/-- What the caller knows about the buffer is there. -/
structure Agrees (room : List (Option UInt8)) (m : Mem) : Prop where
  length_le : room.length ≤ m.length
  get : ∀ (i : Nat) (c : UInt8), room[i]? = some (some c) → m[i]? = some c

theorem Agrees.unknown {maxlen : Nat} {m : Mem} (h : maxlen ≤ m.length) :
    Agrees (List.replicate maxlen none) m := by
  refine ⟨by rwa [List.length_replicate], fun i c hc => ?_⟩
  rw [List.getElem?_replicate] at hc
  split at hc <;> cases hc

theorem Agrees.write {room : List (Option UInt8)} {m bs : Mem} {off : Nat} (h : Agrees room m)
    (hfit : off + bs.length ≤ room.length) :
    Agrees (overwrite room off (bs.map some)) (overwrite m off bs) := by
  have hmap : off + (bs.map some).length ≤ room.length := by rwa [List.length_map]
  have hle := h.length_le
  refine ⟨?_, fun i c hc => ?_⟩
  · rw [overwrite_length hmap, overwrite_length (by omega)]
    exact hle
  · rw [getElem?_overwrite hmap, List.length_map] at hc
    rw [getElem?_overwrite (by omega)]
    by_cases hin : off ≤ i ∧ i < off + bs.length
    · rw [if_pos hin, List.getElem?_map] at hc
      obtain ⟨c', hc', hsome⟩ := Option.map_eq_some_iff.mp hc
      obtain rfl := Option.some.inj hsome
      rw [if_pos hin, hc']
    · rw [if_neg hin] at hc
      rw [if_neg hin]
      exact h.get i c hc

theorem Agrees.grow {room : List (Option UInt8)} {m more : Mem} {maxlen : Nat}
    (h : Agrees room m) (hroom : maxlen ≤ (m ++ more).length) :
    Agrees (room ++ List.replicate (maxlen - room.length) none) (m ++ more) := by
  have hle := h.length_le
  refine ⟨?_, fun i c hc => ?_⟩
  · rw [List.length_append, List.length_replicate]
    rw [List.length_append] at hroom ⊢
    omega
  · by_cases hi : i < room.length
    · rw [List.getElem?_append_left hi] at hc
      rw [List.getElem?_append_left (by omega)]
      exact h.get i c hc
    · rw [List.getElem?_append_right (by omega), List.getElem?_replicate] at hc
      split at hc <;> cases hc

/-- Known text is a prefix of the buffer. -/
theorem Agrees.text {left m : Mem} {more : List (Option UInt8)}
    (h : Agrees ((left ++ [0]).map some ++ more) m) : ∃ rest, m = left ++ 0 :: rest := by
  have hle := h.length_le
  rw [List.length_append, List.length_map] at hle
  have htake : m.take (left ++ [0]).length = left ++ [0] := by
    refine List.ext_getElem? fun i => ?_
    by_cases hi : i < (left ++ [0]).length
    · have hget : (left ++ [0])[i]? = some (left ++ [0])[i] := List.getElem?_eq_getElem hi
      have hknown : ((left ++ [0]).map some ++ more)[i]? = some (some (left ++ [0])[i]) := by
        rw [List.getElem?_append_left (by rwa [List.length_map]), List.getElem?_map, hget,
          Option.map_some]
      rw [List.getElem?_take, if_pos hi, h.get i _ hknown, hget]
    · rw [List.getElem?_take, if_neg hi, List.getElem?_eq_none (by omega)]
  refine ⟨m.drop (left ++ [0]).length, ?_⟩
  have hsplit := List.take_append_drop (left ++ [0]).length m
  rw [htake, List.append_assoc, List.singleton_append] at hsplit
  exact hsplit.symm

/-- The steps on a string buffer leave the text there. -/
theorem runText_open {n left : Mem} (hname : NameOk n) (steps : List TextStep) :
    ∀ {b : BlobBuf} {m : Mem} {room : List (Option UInt8)}, TextOpen b f outer n m →
      Agrees room m → TextLeft left room steps →
      ∃ b' rest, runText b (textStart b f outer n) steps = some b' ∧
        TextOpen b' f outer n (left ++ 0 :: rest) := by
  induction steps with
  | nil =>
      intro b m room h hagrees hleft
      obtain ⟨more, rfl⟩ := hleft
      obtain ⟨rest, rfl⟩ := hagrees.text
      exact ⟨b, rest, rfl, h⟩
  | cons step steps ih =>
      intro b m room h hagrees hleft
      obtain ⟨hvalid, hleft⟩ := hleft
      cases step with
      | write off bs =>
          have hfit : off + bs.length ≤ room.length := hvalid
          have hle := hagrees.length_le
          obtain ⟨c, hstore, hstart, hc⟩ := h.store hname (show off + bs.length ≤ m.length by omega)
          obtain ⟨d, rest, hrun, hd⟩ := ih hc (hagrees.write hfit) hleft
          refine ⟨d, rest, ?_, hd⟩
          rw [runText, hstore, Option.bind_some, ← hstart, hrun]
      | realloc maxlen =>
          have hmax : maxlen + 2 ^ 25 ≤ 2 ^ 31 := hvalid
          obtain ⟨c, more, hrealloc, hc, hroom⟩ :=
            h.realloc hname (show maxlen < 2 ^ 31 by omega)
          obtain ⟨d, rest, hrun, hd⟩ := ih hc (hagrees.grow hroom) hleft
          refine ⟨d, rest, ?_, hd⟩
          rw [runText, hrealloc, Option.bind_some]
          exact hrun

/-! ## Running the calls -/

/-- **The calls append bytes that hold their elements.**  The induction carries
the whole stack of open containers. -/
theorem runCalls_laid (calls : Calls) :
    ∀ {b : BlobBuf} {f : OpenAttr} {outer : List OpenAttr} {spare : Mem},
      Laid b f outer spare → calls.Valid → calls.peak (usedBytes f outer).length < 2 ^ 24 →
      ∃ b' bs spare', runCalls b calls = some b' ∧ Laid b' (f.push bs) outer spare' ∧
        Holds calls.elements bs := by
  induction calls with
  | done =>
      intro b f outer spare h _ _
      exact ⟨b, [], spare, rfl, by simpa [OpenAttr.push] using h, Holds.nil⟩
  | add field next ih =>
      intro b f outer spare h hvalid hpeak
      rw [Calls.peak] at hpeak
      have hle := le_peak next ((usedBytes f outer).length + field.element.size)
      obtain ⟨c, bs, sparec, hadd, hc, hbs⟩ := Field.run_laid h hvalid.1 (by omega)
      have hlen := hbs.length_eq
      simp only [sizes, Nat.add_zero] at hlen
      obtain ⟨d, cs, spared, hrun, hd, hcs⟩ := ih hc hvalid.2
        (by rw [usedBytes_push_length, hlen]; exact hpeak)
      refine ⟨d, bs ++ cs, spared, ?_, by rwa [OpenAttr.push_push] at hd, hbs.append hcs⟩
      rw [runCalls, hadd, Option.bind_some]
      exact hrun
  | text name maxlen steps left next ih =>
      intro b f outer spare h hvalid hpeak
      obtain ⟨hname, hnul, hleft, hnext⟩ := hvalid
      rw [Calls.peak] at hpeak
      have hle := le_peak next ((usedBytes f outer).length
        + (Element.data blobmsgTypeString (name.getD []) (left ++ [0])).size)
      have hlen := @fieldBytes_length blobmsgTypeString (name.getD []) (left ++ [0]) hname
      obtain ⟨c, m, halloc, hc, hroom⟩ := Laid.blobmsgAllocStringBuffer h hname
        (show _ + (4 + blobmsgHdrlen (name.getD []).length + alignUp 4 maxlen) < 2 ^ 24 by omega)
      obtain ⟨d, rest, hsteps, hd⟩ := runText_open hname steps hc (Agrees.unknown hroom) hleft
      rw [Element.size, ← hlen] at hpeak hle
      obtain ⟨e, sparee, hadd, he⟩ := hd.add hname hnul (by omega)
      obtain ⟨g, cs, spareg, hrun, hg, hcs⟩ := ih he hnext
        (by rw [usedBytes_push_length]; omega)
      have hdata : DataFits blobmsgTypeString (left ++ [0]) := Or.inr (Or.inl ⟨rfl, by simp⟩)
      have hholds := holds_fieldBytes (by decide) hname hdata (by omega)
      refine ⟨g, _, spareg, ?_, by rwa [OpenAttr.push_push] at hg, hholds.append hcs⟩
      rw [runCalls, halloc, Option.bind_some]
      simp only
      rw [Option.bind_some, hsteps, Option.bind_some, hadd, Option.bind_some, hrun]
  | nest name array body next ihBody ih =>
      intro b f outer spare h hvalid hpeak
      obtain ⟨hname, hbody, hnext⟩ := hvalid
      rw [Calls.peak] at hpeak
      have hleBody := le_peak body
        ((usedBytes f outer).length + (4 + blobmsgHdrlen (name.getD []).length))
      have hle := le_peak next ((usedBytes f outer).length
        + (Element.nest array (name.getD []) body.elements).size)
      obtain ⟨c, sparec, hopen, hc⟩ := Laid.blobmsgOpenNested h array hname (by omega)
      have hused : (usedBytes ⟨true, if array then blobmsgTypeArray else blobmsgTypeTable,
          nameHeader (name.getD []) (namePad (name.getD []))⟩ (f :: outer)).length
          = (usedBytes f outer).length + (4 + blobmsgHdrlen (name.getD []).length) := by
        rw [usedBytes_length, outerBytes, List.length_append, List.length_append, header_length,
          nameHeader_length hname.fits, usedBytes_length]
        omega
      obtain ⟨d, bs, spared, hrun, hd, hbs⟩ := ihBody hc hbody (by rw [hused]; omega)
      obtain ⟨e, hclose, he⟩ := hd.blobNestEnd
      have hwf : WellFormed (containerType array) (name.getD []) (namePad (name.getD []))
          bs.length := by
        have hsmall := hd.small
        rw [usedBytes_push_length, hused] at hsmall
        refine ⟨by cases array <;> decide, hname.fits, by omega⟩
      have hbytes : OpenAttr.bytes (OpenAttr.push ⟨true,
          if array then blobmsgTypeArray else blobmsgTypeTable,
          nameHeader (name.getD []) (namePad (name.getD []))⟩ bs)
          = frame (containerType array) (name.getD []) (namePad (name.getD [])) bs.length
            ++ bs ++ [] := by
        simp only [OpenAttr.bytes, OpenAttr.push, List.length_append,
          nameHeader_length hname.fits, frame, containerType, List.append_assoc, List.append_nil]
      have hholds := Holds.nest hwf hbs Holds.nil
      rw [hbytes] at he
      have hlen := hholds.length_eq
      simp only [sizes, Nat.add_zero] at hlen
      obtain ⟨g, cs, spareg, hrest, hg, hcs⟩ := ih he hnext
        (by rw [usedBytes_push_length, hlen]; omega)
      refine ⟨g, _, spareg, ?_, by rwa [OpenAttr.push_push] at hg, hholds.append hcs⟩
      rw [runCalls, hopen, Option.bind_some]
      simp only
      rw [Option.bind_some, hrun, Option.bind_some, hclose, Option.bind_some, hrest]

theorem attrOf_x : AttrOf (.data blobmsgTypeInt8 [120] [1]) (fieldBytes blobmsgTypeInt8 [120] [1]) :=
  ⟨[], _, [], holds_fieldBytes (by decide) ⟨by decide, by decide⟩ (by simp [DataFits])
    (by decide), by decide, by rw [List.append_nil]⟩

end Libubox.Blobmsg
