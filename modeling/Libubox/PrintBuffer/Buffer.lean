import Libubox.Lib.Bytes
import Libubox.Lib.Machine

/-!
# Print buffers

`struct printbuf` over its block of memory.  What an allocation returns holds
arbitrary bytes: `malloc` and `realloc` stand for these, and are `none` where the
allocation fails.  A function returns `none` where the source leaves the behaviour
undefined: an `int` that overflows or a store outside of the block.

`Keeps` is what every operation keeps: the block has its size and begins with the
content.  That a zero byte is behind the content is another matter; each operation has
a lemma on when it leaves one.
-/

namespace Libubox.PrintBuffer

open Bytes

/-! ## The source -/

/-- `struct printbuf`. -/
structure Printbuf where
  buf : List UInt8
  bpos : Nat
  size : Nat

/-- The value of an `int` expression. -/
def toInt (n : Nat) : Option Nat := if n < 2 ^ 31 then some n else none

/-- Bytes are stored in a block. -/
def write (mem : List UInt8) (off : Nat) (bs : List UInt8) : Option (List UInt8) :=
  if off + bs.length ≤ mem.length then some (overwrite mem off bs) else none

/-- What a new block of some size holds. -/
def fresh (size : Nat) (malloc : Nat → UInt8) : List UInt8 := (List.range size).map malloc

/-- A block after `realloc` to a size that is not smaller. -/
def enlarge (buf : List UInt8) (size : Nat) (realloc : Nat → UInt8) : List UInt8 :=
  buf ++ (fresh size realloc).drop buf.length

/-- `printbuf_new`; `none` is the null pointer. -/
def printbufNew (malloc : Option (Nat → UInt8)) : Option Printbuf :=
  malloc.map fun malloc => { buf := fresh 32 malloc, bpos := 0, size := 32 }

/-- `printbuf_extend`. -/
def printbufExtend (p : Printbuf) (minSize : Nat) (realloc : Option (Nat → UInt8)) :
    Option (Int × Printbuf) :=
  if minSize ≤ p.size then some (0, p)
  else (toInt (p.size * 2)).bind fun newSize =>
    (toInt (minSize + 8)).bind fun least =>
      let newSize := if newSize < least then least else newSize
      match realloc with
      | none => some (-1, p)
      | some realloc => some (0, { p with buf := enlarge p.buf newSize realloc, size := newSize })

/-- `printbuf_memappend`. -/
def printbufMemappend (p : Printbuf) (buf : List UInt8) (realloc : Option (Nat → UInt8)) :
    Option (Int × Printbuf) :=
  (toInt (p.bpos + buf.length + 1)).bind fun needed =>
    (if p.size ≤ needed then printbufExtend p needed realloc else some (0, p)).bind fun (ret, p) =>
      if ret < 0 then some (-1, p)
      else (write p.buf p.bpos buf).bind fun mem =>
        (write mem (p.bpos + buf.length) [0]).map fun mem =>
          (buf.length, { p with buf := mem, bpos := p.bpos + buf.length })

/-- Where `printbuf_memset` begins. -/
def startOf (pb : Printbuf) (offset : Int) : Option Nat :=
  if offset = -1 then some pb.bpos else if offset < 0 then none else some offset.toNat

/-- `printbuf_memset`, of a length that is not negative. -/
def printbufMemset (pb : Printbuf) (offset : Int) (charvalue : UInt8) (len : Nat)
    (realloc : Option (Nat → UInt8)) : Option (Int × Printbuf) :=
  (startOf pb offset).bind fun offset =>
    (toInt (offset + len)).bind fun sizeNeeded =>
      (if pb.size < sizeNeeded then printbufExtend pb sizeNeeded realloc else some (0, pb)).bind
        fun (ret, pb) =>
          if ret < 0 then some (-1, pb)
          else (write pb.buf offset (List.replicate len charvalue)).map fun mem =>
            (0, { pb with
              buf := mem
              bpos := if pb.bpos < sizeNeeded then sizeNeeded else pb.bpos })

/-- `sprintbuf`; `text` is what the format comes to, or `none` if formatting fails.  A
text that does not fit on the stack is allocated (`vasprintf`), and what the call of
`printbuf_memappend` returns is not looked at. -/
def sprintbuf (p : Printbuf) (text : Option (List UInt8)) (vasprintf : Bool)
    (realloc : Option (Nat → UInt8)) : Option (Int × Printbuf) :=
  match text with
  | none => some (-1, p)
  | some text =>
      if 127 < text.length ∧ vasprintf = false then some (-1, p)
      else (printbufMemappend p text realloc).map fun r => (text.length, r.2)

/-- `printbuf_reset`. -/
def printbufReset (p : Printbuf) : Option Printbuf :=
  (write p.buf 0 [0]).map fun mem => { p with buf := mem, bpos := 0 }

/-! ## What is kept -/

variable {p : Printbuf} {content bytes : List UInt8}

/-- The block has its size and begins with the content. -/
structure Keeps (content : List UInt8) (p : Printbuf) : Prop where
  length : p.buf.length = p.size
  pos : p.bpos ≤ p.size
  content : p.buf.take p.bpos = content
  size : 0 < p.size

theorem Keeps.content_length (h : Keeps content p) : content.length = p.bpos := by
  rw [← h.content, List.length_take, h.length, Nat.min_eq_left h.pos]

theorem fresh_length (size : Nat) (malloc : Nat → UInt8) : (fresh size malloc).length = size := by
  rw [fresh, List.length_map, List.length_range]

theorem getElem?_fresh {size i : Nat} (h : i < size) (malloc : Nat → UInt8) :
    (fresh size malloc)[i]? = some (malloc i) := by
  rw [fresh, List.getElem?_map, List.getElem?_range h, Option.map_some]

theorem keeps_new (malloc : Nat → UInt8) : Keeps [] ⟨fresh 32 malloc, 0, 32⟩ :=
  ⟨fresh_length 32 malloc, Nat.zero_le 32, List.take_zero, Nat.zero_lt_succ 31⟩

/-- `printbuf_extend` of a block that is too small. -/
theorem printbufExtend_spec {minSize : Nat} (realloc : Nat → UInt8) (h : Keeps content p) (hsmall : p.size < minSize)
    (hmin : minSize ≤ 2 ^ 30) :
    ∃ p', printbufExtend p minSize (some realloc) = some (0, p') ∧ Keeps content p' ∧
      p'.bpos = p.bpos ∧ minSize < p'.size ∧ p'.buf[minSize]? = some (realloc minSize) := by
  have hint : toInt (p.size * 2) = some (p.size * 2) := if_pos (by omega)
  have hint' : toInt (minSize + 8) = some (minSize + 8) := if_pos (by omega)
  obtain ⟨newSize, hnew⟩ : ∃ n, n = if p.size * 2 < minSize + 8 then minSize + 8 else p.size * 2 :=
    ⟨_, rfl⟩
  have hlarge : minSize < newSize := by
    rw [hnew]
    split
    · omega
    · omega
  refine ⟨{ p with buf := enlarge p.buf newSize realloc, size := newSize }, ?_, ⟨?_, ?_, ?_, ?_⟩,
    rfl, hlarge, ?_⟩
  · rw [printbufExtend, if_neg (by omega), hint, hint', hnew]
    rfl
  · change (enlarge p.buf newSize realloc).length = newSize
    rw [enlarge, List.length_append, List.length_drop, fresh_length, h.length]
    omega
  · exact h.pos.trans (hsmall.trans hlarge).le
  · change (enlarge p.buf newSize realloc).take p.bpos = content
    rw [enlarge, List.take_append_of_le_length (h.length ▸ h.pos), h.content]
  · exact Nat.zero_lt_of_lt hlarge
  · change (enlarge p.buf newSize realloc)[minSize]? = _
    have hlen := h.length
    rw [enlarge, List.getElem?_append_right (by omega), List.getElem?_drop,
      Nat.add_sub_cancel' (by omega), getElem?_fresh hlarge]

/-- Bytes that are stored from within the content on. -/
theorem Keeps.write {off : Nat} (h : Keeps content p) (bytes : List UInt8) (hoff : off ≤ p.bpos)
    (hroom : off + bytes.length ≤ p.size) :
    ∃ mem, PrintBuffer.write p.buf off bytes = some mem ∧ mem.length = p.size ∧
      mem.take (max p.bpos (off + bytes.length)) = overwrite content off bytes ∧
      ∀ i, off + bytes.length ≤ i → mem[i]? = p.buf[i]? := by
  have hlen := h.length
  have hpos := h.pos
  refine ⟨overwrite p.buf off bytes, if_pos (by omega), ?_, ?_, ?_⟩
  · rw [overwrite_length (by omega), hlen]
  · rw [take_overwrite hoff (by omega), h.content]
  · intro i hi
    rw [getElem?_overwrite (by omega), if_neg (by omega)]

/-- The text is terminated inside of the block. -/
def Terminated (p : Printbuf) : Prop := p.bpos < p.size ∧ p.buf[p.bpos]? = some 0

/-- The block after `printbuf_extend` where it is called. -/
theorem printbufExtend_room {needed : Nat} (realloc : Nat → UInt8) (h : Keeps content p) (hneeded : needed ≤ 2 ^ 30) :
    ∃ p', (if p.size ≤ needed then printbufExtend p needed (some realloc) else some (0, p)) =
        some (0, p') ∧ Keeps content p' ∧ p'.bpos = p.bpos ∧ needed ≤ p'.size := by
  by_cases hsmall : p.size < needed
  · obtain ⟨p', hextend, hkeeps, hpos, hsize, -⟩ := printbufExtend_spec realloc h
      hsmall hneeded
    exact ⟨p', by rw [if_pos hsmall.le, hextend], hkeeps, hpos, hsize.le⟩
  · refine ⟨p, ?_, h, rfl, Nat.le_of_not_lt hsmall⟩
    rw [printbufExtend, if_pos (Nat.le_of_not_lt hsmall), ite_self]

theorem printbufMemappend_spec (realloc : Nat → UInt8) (h : Keeps content p)
    (hint : p.bpos + bytes.length < 2 ^ 30) :
    ∃ p', printbufMemappend p bytes (some realloc) = some ((bytes.length : Int), p') ∧
      Keeps (content ++ bytes) p' ∧ p'.bpos = p.bpos + bytes.length ∧ Terminated p' := by
  have hneeded : toInt (p.bpos + bytes.length + 1) = some (p.bpos + bytes.length + 1) :=
    if_pos (by omega)
  obtain ⟨p₁, hextend, h₁, hpos, hroom⟩ := printbufExtend_room realloc h
    (show p.bpos + bytes.length + 1 ≤ 2 ^ 30 by omega)
  have hlen := h₁.content_length
  obtain ⟨mem, hwrite, hmem, htake, -⟩ :=
    h₁.write bytes (Nat.le_refl p₁.bpos) (by omega)
  have hcontent : overwrite content p₁.bpos bytes = content ++ bytes := by
    rw [overwrite, ← hlen, List.take_length, List.drop_of_length_le (by omega), List.append_nil]
  rw [Nat.max_eq_right (by omega), hcontent] at htake
  have h₂ : Keeps (content ++ bytes) { p₁ with buf := mem, bpos := p₁.bpos + bytes.length } :=
    ⟨hmem, show p₁.bpos + bytes.length ≤ p₁.size by omega, htake, h₁.size⟩
  obtain ⟨mem', hzero, hmem', htake', -⟩ := h₂.write [0]
    (Nat.le_refl (p₁.bpos + bytes.length)) (show p₁.bpos + bytes.length + 1 ≤ p₁.size by omega)
  have hlen' : (content ++ bytes).length = p₁.bpos + bytes.length := by
    rw [List.length_append, hlen]
  have hcontent' : overwrite (content ++ bytes) (p₁.bpos + bytes.length) [0] =
      content ++ bytes ++ [0] := by
    rw [overwrite, ← hlen', List.take_length, List.drop_of_length_le (by simp), List.append_nil]
  rw [hcontent', List.length_singleton, Nat.max_eq_right (Nat.le_succ _)] at htake'
  refine ⟨{ p₁ with buf := mem', bpos := p₁.bpos + bytes.length }, ?_,
    ⟨hmem', h₂.pos, ?_, h₁.size⟩, by rw [hpos], show p₁.bpos + bytes.length < p₁.size by omega, ?_⟩
  · rw [printbufMemappend, hneeded, Option.bind_some, hextend, Option.bind_some]
    simp only [Int.lt_irrefl, if_false, hwrite, Option.bind_some, hzero, Option.map_some]
  · have hfront := congrArg (List.take (p₁.bpos + bytes.length)) htake'
    rwa [List.take_take, Nat.min_eq_left (Nat.le_succ _),
      List.take_append_of_le_length hlen'.ge, ← hlen', List.take_length, hlen'] at hfront
  · have hlast : (mem'.take (p₁.bpos + bytes.length + 1))[p₁.bpos + bytes.length]? =
        (content ++ bytes ++ [0])[p₁.bpos + bytes.length]? := by rw [htake']
    rw [List.getElem?_take_of_lt (Nat.lt_succ_self _), List.getElem?_append_right hlen'.le, hlen',
      Nat.sub_self] at hlast
    exact hlast

/-- Where the byte behind the content comes from after `printbuf_memset` up to `needed`. -/
def memsetEnds (p : Printbuf) (needed : Nat) (realloc : Nat → UInt8) : Prop :=
  needed ≤ p.bpos ∨ if p.size < needed then realloc needed = 0 else p.buf[needed]? = some 0

theorem printbufMemset_spec {offset : Int} {off len : Nat} (charvalue : UInt8)
    (realloc : Nat → UInt8) (h : Keeps content p) (hstart : startOf p offset = some off) (hoff : off ≤ p.bpos)
    (hint : off + len < 2 ^ 30) :
    ∃ p', printbufMemset p offset charvalue len (some realloc) = some (0, p') ∧
      Keeps (overwrite content off (List.replicate len charvalue)) p' ∧
      p'.bpos = max p.bpos (off + len) ∧
      (Terminated p → (Terminated p' ↔ memsetEnds p (off + len) realloc)) := by
  have hneeded : toInt (off + len) = some (off + len) := if_pos (by omega)
  have hlength : (List.replicate len charvalue).length = len := List.length_replicate
  -- the block, and the byte behind what is set
  obtain ⟨p₁, hextend, h₁, hpos, hroom, hbyte⟩ : ∃ p₁,
      (if p.size < off + len then printbufExtend p (off + len) (some realloc) else some (0, p)) =
        some (0, p₁) ∧ Keeps content p₁ ∧ p₁.bpos = p.bpos ∧ off + len ≤ p₁.size ∧
      (p.size < off + len ∧ off + len < p₁.size ∧
        p₁.buf[off + len]? = some (realloc (off + len)) ∨ ¬p.size < off + len ∧ p₁ = p) := by
    by_cases hsmall : p.size < off + len
    · obtain ⟨p', hextend, hkeeps, hpos, hsize, hbyte⟩ := printbufExtend_spec realloc h
        hsmall (by omega)
      exact ⟨p', by rw [if_pos hsmall, hextend], hkeeps, hpos, hsize.le,
        .inl ⟨hsmall, hsize, hbyte⟩⟩
    · exact ⟨p, if_neg hsmall, h, rfl, Nat.le_of_not_lt hsmall, .inr ⟨hsmall, rfl⟩⟩
  obtain ⟨mem, hwrite, hmem, htake, hrest⟩ :=
    h₁.write (List.replicate len charvalue) (hpos ▸ hoff) (by rwa [hlength])
  rw [hlength, hpos] at htake
  rw [hlength] at hrest
  have hmax : (if p₁.bpos < off + len then off + len else p₁.bpos) = max p.bpos (off + len) := by
    rw [hpos]
    split
    · omega
    · omega
  have hle := h₁.pos
  refine ⟨{ p₁ with buf := mem, bpos := max p.bpos (off + len) }, ?_,
    ⟨hmem, show max p.bpos (off + len) ≤ p₁.size by omega, htake, h₁.size⟩, rfl, ?_⟩
  · rw [printbufMemset, hstart, Option.bind_some, hneeded, Option.bind_some, hextend,
      Option.bind_some]
    simp only [Int.lt_irrefl, if_false, hwrite, Option.map_some, hmax]
  · intro hterm
    change max p.bpos (off + len) < p₁.size ∧ mem[max p.bpos (off + len)]? = some 0 ↔ _
    by_cases hinside : off + len ≤ p.bpos
    · have hsame : p₁ = p := by
        rcases hbyte with ⟨hsmall, -⟩ | ⟨-, hsame⟩
        · have := h.pos
          omega
        · exact hsame
      rw [Nat.max_eq_left hinside, hrest _ hinside, hsame]
      exact ⟨fun _ => .inl hinside, fun _ => hterm⟩
    · rw [Nat.max_eq_right (by omega), hrest _ (Nat.le_refl _), memsetEnds,
        or_iff_right hinside]
      rcases hbyte with ⟨hsmall, hlarge, hget⟩ | ⟨hsmall, hsame⟩
      · rw [if_pos hsmall, hget]
        exact ⟨fun hend => Option.some.inj hend.2, fun hzero => ⟨hlarge, congrArg some hzero⟩⟩
      · rw [if_neg hsmall, hsame]
        refine ⟨fun hend => hend.2, fun hzero => ⟨?_, hzero⟩⟩
        have hin := (List.getElem?_eq_some_iff.mp hzero).1
        rwa [h.length] at hin

theorem printbufReset_spec (h : Keeps content p) :
    ∃ p', printbufReset p = some p' ∧ Keeps [] p' ∧ p'.bpos = 0 ∧ Terminated p' := by
  have hsize := h.size
  obtain ⟨mem, hwrite, hmem, htake, -⟩ := h.write [0] (Nat.zero_le p.bpos)
    (show 0 + 1 ≤ p.size by omega)
  refine ⟨{ p with buf := mem, bpos := 0 }, ?_, ⟨hmem, Nat.zero_le _, List.take_zero, hsize⟩, rfl,
    hsize, ?_⟩
  · rw [printbufReset, hwrite, Option.map_some]
  · have hfirst : (mem.take (max p.bpos (0 + 1)))[0]? = (overwrite content 0 [0])[0]? := by
      rw [← List.length_singleton (a := (0 : UInt8)), htake]
    rw [List.getElem?_take_of_lt (by omega)] at hfirst
    exact hfirst

end Libubox.PrintBuffer
