import Libubox.Blobmsg.Attr

/-!
# `blobmsg_check_attr` on untrusted bytes

The memory given to the check is everything from the attribute to the end of
the buffer, so a fault is a read outside the buffer.  Two things can go wrong:
a read behind the end, and `true` for an attribute whose name runs out of it.
Both need a name length that leaves no room for the terminator and the padding
of the name, or a raw length below four; `check_sound_iff` has the exact
condition.
-/

namespace Libubox.Blobmsg

open Bytes Blob

/-! ## What is read from an attribute -/

/-- The values the check computes from the header and the name length. -/
structure AttrView (attr : Mem) (raw namelen off id : Nat) : Prop where
  raw_eq : blobRawLen attr = some raw
  namelen_eq : blobmsgNamelen (blobData attr) = some namelen
  off_eq : blobmsgDataOffset attr = some off
  id_eq : blobId attr = some id

/-- The sizes of the integer types. -/
def intWidth (id : Nat) : Option Nat :=
  [none, none, none, none, some 8, some 4, some 2, some 1][id]?.join

/-- What the type check says of an attribute of type `id`, in terms of the
offset at which its data starts. -/
def typeResult (attr : Mem) (raw off id : Nat) : Option Bool :=
  if id = blobmsgTypeString then
    if 4 + off ≤ raw then
      if raw = 4 + off then some false else attr[raw - 1]?.map fun c => decide (c = 0)
    else none
  else
    match intWidth id with
    | some width => some (decide (raw = 4 + off + width))
    | none => some true

/-- `blobmsg_check_attr` accepted what it must: the data length is not
negative, terminator and data lie inside the attribute, and a string ends. -/
def SoundAttr (attr : Mem) : Prop :=
  ∃ raw namelen off id, AttrView attr raw namelen off id ∧ 6 + namelen < raw ∧
    ∃ (len : Nat) (data : Mem), blobmsgDataLen attr = some (len : Int) ∧ blobmsgData attr = some data ∧
      4 + off + len = raw ∧ raw ≤ attr.length ∧
      (id = blobmsgTypeString → ∃ i : Nat, i < len ∧ data[i]? = some 0)

/-- The ways in which the check of the name ends inside the memory: it rejects
the attribute, or it passes and then `P` holds. -/
inductive NameSafe (attr : Mem) (name : Bool) (P : Nat → Nat → Nat → Nat → Prop) : Prop
  | short {raw : Nat} (hraw : blobRawLen attr = some raw) (h : raw = 4 ∨ raw = 5)
  | unnamed (hlen : blobmsgNamelen (blobData attr) = some 0) (h : name = true)
  | tooLong {raw namelen : Nat} (hraw : blobRawLen attr = some raw)
      (hlen : blobmsgNamelen (blobData attr) = some namelen) (hmin : 6 ≤ raw)
      (h : raw < namelen + 6)
  | unterminated {namelen : Nat} {c : UInt8}
      (hlen : blobmsgNamelen (blobData attr) = some namelen) (hc : attr[6 + namelen]? = some c)
      (h : c ≠ 0)
  | unknown {namelen id : Nat} {c : UInt8}
      (hlen : blobmsgNamelen (blobData attr) = some namelen) (hc : attr[6 + namelen]? = some c)
      (hid : blobId attr = some id) (h : blobmsgTypeLast < id)
  | typed {raw namelen off id : Nat} {c : UInt8} (view : AttrView attr raw namelen off id)
      (hc : attr[6 + namelen]? = some c) (h : P raw namelen off id)

/-- The check reads inside the memory: data of a string does not start behind
the attribute. -/
def CheckReads (attr : Mem) (name : Bool) : Prop :=
  NameSafe attr name fun raw _ off id => id = blobmsgTypeString → 4 + off ≤ raw

/-- The type check rejects: an integer of another size, or a string that is
empty or not terminated. -/
def TypeRejects (attr : Mem) (raw off id : Nat) : Prop :=
  (∃ width, intWidth id = some width ∧ raw ≠ 4 + off + width) ∨
    (id = blobmsgTypeString ∧ (raw = 4 + off ∨
      (4 + off < raw ∧ ∃ c, attr[raw - 1]? = some c ∧ c ≠ 0)))

/-- The check is right: the name with its terminator and its padding ends
inside the attribute, or the type check rejects it in spite of that. -/
def CheckRight (attr : Mem) (name : Bool) : Prop :=
  NameSafe attr name fun raw namelen off id =>
    (6 + namelen < raw ∧ 4 + off ≤ raw) ∨ TypeRejects attr raw off id

/-! ## Reading the values -/

theorem blobmsgNamelen_lt {hdr : Mem} {n : Nat} (h : blobmsgNamelen hdr = some n) :
    n < 2 ^ 16 ∧ 2 ≤ hdr.length := by
  unfold blobmsgNamelen at h
  split at h
  · next hlen =>
      cases h
      have hlt := beNat_lt (hdr.take 2)
      rw [List.length_take_of_le hlen] at hlt
      exact ⟨by simpa using hlt, hlen⟩
  · cases h

theorem exists_view {attr : Mem} (h : 6 ≤ attr.length) :
    ∃ raw namelen off id, AttrView attr raw namelen off id := by
  obtain ⟨w, hw⟩ := exists_idLen (show 4 ≤ attr.length by omega)
  have hdata : 2 ≤ (blobData attr).length := by
    rw [blobData, List.length_drop]
    omega
  have hnamelen : blobmsgNamelen (blobData attr) = some (beNat ((blobData attr).take 2)) :=
    if_pos hdata
  obtain ⟨off, hoff⟩ : ∃ off, blobmsgDataOffset attr = some off := by
    rw [blobmsgDataOffset, blobIsExtended, hw, Option.map_some, Option.bind_some]
    split
    · rw [hnamelen]
      exact ⟨_, rfl⟩
    · exact ⟨0, rfl⟩
  exact ⟨_, _, off, _, blobRawLen_eq hw, hnamelen, hoff, by rw [blobId, hw, Option.map_some]⟩

theorem exists_idLen_of_rawLen {attr : Mem} {raw : Nat} (h : blobRawLen attr = some raw) :
    ∃ w, idLen attr = some w ∧ raw = w % 2 ^ 24 := by
  cases hw : idLen attr with
  | none => simp [blobRawLen, blobLen, hw] at h
  | some w => exact ⟨w, rfl, Option.some.inj (h.symm.trans (blobRawLen_eq hw))⟩

theorem rawLen_lt {attr : Mem} {raw : Nat} (h : blobRawLen attr = some raw) : raw < 2 ^ 24 := by
  obtain ⟨w, -, rfl⟩ := exists_idLen_of_rawLen h
  exact Nat.mod_lt _ (by decide)

theorem blobLen_of_rawLen {attr : Mem} {raw : Nat} (h : blobRawLen attr = some raw) :
    blobLen attr = some ((raw + 2 ^ 32 - 4) % 2 ^ 32) := by
  obtain ⟨w, hw, rfl⟩ := exists_idLen_of_rawLen h
  rw [blobLen, hw, Option.map_some]

theorem dataOffset_lt {attr : Mem} {off : Nat} (h : blobmsgDataOffset attr = some off) :
    off < 2 ^ 17 := by
  rw [blobmsgDataOffset] at h
  obtain ⟨extended, _, h⟩ := Option.bind_eq_some_iff.mp h
  split at h
  · obtain ⟨namelen, hlen, rfl⟩ := Option.map_eq_some_iff.mp h
    have hlt := (blobmsgNamelen_lt hlen).1
    have hle := blobmsgHdrlen_le namelen
    omega
  · cases h
    decide

/-- The data length as a number: the wrap of `blob_len` is undone by the
conversion to `int`. -/
theorem dataLen_of_rawLen {attr : Mem} {raw off : Nat} (hraw : blobRawLen attr = some raw)
    (hoff : blobmsgDataOffset attr = some off) :
    blobmsgDataLen attr = some ((raw : Int) - 4 - off) := by
  have hrawlt := rawLen_lt hraw
  have hofflt := dataOffset_lt hoff
  rw [blobmsgDataLen, blobLen_of_rawLen hraw, Option.bind_some, hoff, Option.map_some]
  congr 1
  have hmod : ((((raw + 2 ^ 32 - 4) % 2 ^ 32 : Nat) : Int) - off) % (2 ^ 32 : Nat)
      = ((raw : Int) - 4 - off) % (2 ^ 32 : Nat) := by omega
  rw [← Int.emod_bmod, hmod, Int.emod_bmod]
  exact Int.bmod_eq_of_le_mul_two (by omega) (by omega)

/-! ## The type check -/

theorem blobCheckType_int {data : Mem} {len width : Nat} {type : Int} (hlow : 4 ≤ type)
    (hhigh : type ≤ 7) (hwidth : blobTypeMinlen type = some width) :
    blobCheckType data len type = some (decide (len = width)) := by
  rw [blobCheckType, if_neg (by unfold blobAttrLast; omega), hwidth, Option.bind_some]
  by_cases hlen : len = width
  · rw [if_neg (by simp [hlen]), if_neg (by omega), if_neg (by unfold blobAttrString; omega),
      decide_eq_true hlen]
  · rw [if_pos ⟨hlow, hhigh, hlen⟩, decide_eq_false hlen]

theorem blobCheckType_string {data : Mem} {len : Nat} :
    blobCheckType data len 3
      = if len < 1 then some false else data[len - 1]?.map fun c => decide (c = 0) := by
  have hmin : blobTypeMinlen 3 = some 1 := rfl
  rw [blobCheckType, if_neg (by decide), hmin, Option.bind_some,
    if_neg (by unfold blobAttrInt8; omega)]
  by_cases hlen : len < 1
  · rw [if_pos ⟨by decide, hlen⟩, if_pos hlen]
  · rw [if_neg (fun h => hlen h.2), if_neg hlen, if_pos (show (3 : Int) = blobAttrString from rfl)]

namespace AttrView

variable {attr : Mem} {raw namelen off id : Nat}

theorem raw_lt (h : AttrView attr raw namelen off id) : raw < 2 ^ 24 :=
  rawLen_lt h.raw_eq

theorem off_lt (h : AttrView attr raw namelen off id) : off < 2 ^ 17 :=
  dataOffset_lt h.off_eq

theorem blobLen_eq (h : AttrView attr raw namelen off id) :
    blobLen attr = some ((raw + 2 ^ 32 - 4) % 2 ^ 32) :=
  blobLen_of_rawLen h.raw_eq

theorem blobmsgDataLen_eq (h : AttrView attr raw namelen off id) :
    blobmsgDataLen attr = some ((raw : Int) - 4 - off) :=
  dataLen_of_rawLen h.raw_eq h.off_eq

theorem blobmsgData_eq (h : AttrView attr raw namelen off id) :
    blobmsgData attr = some (attr.drop (4 + off)) := by
  rw [blobmsgData, h.off_eq, Option.map_some, blobData, List.drop_drop]

/-- The type check on the data. -/
theorem typeResult_eq (h : AttrView attr raw namelen off id) (hid : id ≤ blobmsgTypeLast)
    (hn : attr.length < 2 ^ 32) :
    ((blobType id).bind fun type =>
        if type = 0 then some true
        else blobCheckType (attr.drop (4 + off)) (toUnsigned ((raw : Int) - 4 - off)) type)
      = typeResult attr raw off id := by
  have hraw := h.raw_lt
  have hoff := h.off_lt
  generalize hlen : toUnsigned ((raw : Int) - 4 - off) = len
  have hin : 4 + off ≤ raw → 4 + off + len = raw := by
    unfold toUnsigned at hlen
    omega
  have hout : raw < 4 + off → 4 + off + len = raw + 2 ^ 32 := by
    unfold toUnsigned at hlen
    omega
  have hint : ∀ width : Nat, width ≤ 8 → decide (len = width)
      = decide (raw = 4 + off + width) := by
    intro width hwidth
    refine decide_eq_decide.mpr ?_
    by_cases h' : 4 + off ≤ raw
    · have := hin h'
      omega
    · have := hout (by omega)
      omega
  unfold blobmsgTypeLast at hid
  have hcases : id = 0 ∨ id = 1 ∨ id = 2 ∨ id = 3 ∨ id = 4 ∨ id = 5 ∨ id = 6 ∨ id = 7 := by omega
  rcases hcases with rfl | rfl | rfl | rfl | rfl | rfl | rfl | rfl
  · rfl
  · rfl
  · rfl
  · -- a string: its last byte is read at the end of the attribute
    have hget : (attr.drop (4 + off))[len - 1]? = attr[4 + off + (len - 1)]? :=
      List.getElem?_drop
    have hstring := @blobCheckType_string (attr.drop (4 + off)) len
    refine hstring.trans ?_
    rw [typeResult, if_pos (show 3 = blobmsgTypeString from rfl)]
    by_cases h' : 4 + off ≤ raw
    · have hlen' := hin h'
      rw [if_pos h']
      by_cases hzero : raw = 4 + off
      · rw [if_pos hzero, if_pos (by omega)]
      · have hlast : 4 + off + (len - 1) = raw - 1 := by omega
        rw [if_neg hzero, if_neg (by omega), hget, hlast]
    · have hlen' := hout (by omega)
      rw [if_neg h', if_neg (by omega), hget, List.getElem?_eq_none (by omega), Option.map_none]
  · exact (@blobCheckType_int _ len 8 7 (by decide) (by decide) rfl).trans
      (congrArg some (hint 8 (by decide)))
  · exact (@blobCheckType_int _ len 4 6 (by decide) (by decide) rfl).trans
      (congrArg some (hint 4 (by decide)))
  · exact (@blobCheckType_int _ len 2 5 (by decide) (by decide) rfl).trans
      (congrArg some (hint 2 (by decide)))
  · exact (@blobCheckType_int _ len 1 4 (by decide) (by decide) rfl).trans
      (congrArg some (hint 1 (by decide)))

/-- The check behind the test for short attributes. -/
theorem blobmsgCheckAttr_eq (h : AttrView attr raw namelen off id) (name : Bool)
    (hn : attr.length < 2 ^ 32) (hlong : raw ≠ 4 ∧ raw ≠ 5) :
    blobmsgCheckAttr attr name
      = if namelen = 0 ∧ name = true then some false
        else if 6 ≤ raw ∧ raw < namelen + 6 then some false
        else attr[6 + namelen]?.bind fun c =>
          if c ≠ 0 then some false
          else if blobmsgTypeLast < id then some false
          else typeResult attr raw off id := by
  have hraw := h.raw_lt
  have hnamelen := (blobmsgNamelen_lt h.namelen_eq).1
  have hget : (blobmsgName attr)[namelen]? = attr[6 + namelen]? := by
    rw [blobmsgName, blobData, List.drop_drop, List.getElem?_drop]
  have hlt : ((raw + 2 ^ 32 - 4) % 2 ^ 32 - 2 < namelen) ↔ (6 ≤ raw ∧ raw < namelen + 6) := by
    omega
  rw [blobmsgCheckAttr, h.blobLen_eq, Option.bind_some, if_neg (by omega), h.namelen_eq,
    Option.bind_some]
  by_cases hname : namelen = 0 ∧ name = true
  · rw [if_pos hname, if_pos hname]
  rw [if_neg hname, if_neg hname]
  by_cases htoo : 6 ≤ raw ∧ raw < namelen + 6
  · rw [if_pos (hlt.mpr htoo), if_pos htoo]
  rw [if_neg fun hc => htoo (hlt.mp hc), if_neg htoo, hget]
  refine congrArg _ (funext fun c => ?_)
  by_cases hc : c ≠ 0
  · rw [if_pos hc, if_pos hc]
  rw [if_neg hc, if_neg hc, h.id_eq, Option.bind_some, h.blobmsgDataLen_eq, Option.bind_some,
    h.blobmsgData_eq, Option.bind_some]
  by_cases hid : blobmsgTypeLast < id
  · rw [if_pos hid, if_pos hid]
  · rw [if_neg hid, if_neg hid, h.typeResult_eq (by omega) hn]

/-- What soundness comes to once the raw length is inside the memory. -/
theorem sound_iff (h : AttrView attr raw namelen off id) (hin : raw ≤ attr.length)
    (hstring : id = blobmsgTypeString → 4 + off < raw → attr[raw - 1]? = some 0)
    (hempty : id = blobmsgTypeString → raw ≠ 4 + off) :
    SoundAttr attr ↔ 6 + namelen < raw ∧ 4 + off ≤ raw := by
  constructor
  · rintro ⟨raw', namelen', off', id', h', hname, len, data, _, _, hlen, _⟩
    obtain rfl := Option.some.inj (h.raw_eq.symm.trans h'.raw_eq)
    obtain rfl := Option.some.inj (h.namelen_eq.symm.trans h'.namelen_eq)
    obtain rfl := Option.some.inj (h.off_eq.symm.trans h'.off_eq)
    exact ⟨hname, by omega⟩
  · rintro ⟨hname, hoff⟩
    have hlen : (raw : Int) - 4 - off = ((raw - 4 - off : Nat) : Int) := by omega
    refine ⟨raw, namelen, off, id, h, hname, raw - 4 - off, attr.drop (4 + off), ?_,
      h.blobmsgData_eq, by omega, hin, fun hid => ⟨raw - 4 - off - 1, ?_, ?_⟩⟩
    · rw [h.blobmsgDataLen_eq, hlen]
    · have := hempty hid
      omega
    · have hne := hempty hid
      have hlast : 4 + off + (raw - 4 - off - 1) = raw - 1 := by omega
      rw [List.getElem?_drop, hlast]
      exact hstring hid (by omega)

end AttrView

/-! ## The exact conditions -/

variable {attr : Mem}

/-- Behind the tests on the lengths, the byte at the terminator decides. -/
theorem nameSafe_iff_byte {raw namelen off id : Nat} (h : AttrView attr raw namelen off id)
    {P : Nat → Nat → Nat → Nat → Prop} {name : Bool} (hlong : ¬ (raw = 4 ∨ raw = 5))
    (hname : ¬ (namelen = 0 ∧ name = true)) (hfit : ¬ (6 ≤ raw ∧ raw < namelen + 6)) :
    NameSafe attr name P ↔ ∃ c, attr[6 + namelen]? = some c ∧
      (c ≠ 0 ∨ blobmsgTypeLast < id ∨ P raw namelen off id) := by
  constructor
  · intro hsafe
    cases hsafe with
    | short hraw hshort =>
        obtain rfl := Option.some.inj (h.raw_eq.symm.trans hraw)
        exact absurd hshort hlong
    | unnamed hlen htrue =>
        exact absurd ⟨Option.some.inj (h.namelen_eq.symm.trans hlen), htrue⟩ hname
    | tooLong hraw hlen hmin hlt =>
        obtain rfl := Option.some.inj (h.raw_eq.symm.trans hraw)
        obtain rfl := Option.some.inj (h.namelen_eq.symm.trans hlen)
        exact absurd ⟨hmin, hlt⟩ hfit
    | unterminated hlen hc hne =>
        obtain rfl := Option.some.inj (h.namelen_eq.symm.trans hlen)
        exact ⟨_, hc, Or.inl hne⟩
    | unknown hlen hc hid hlast =>
        obtain rfl := Option.some.inj (h.namelen_eq.symm.trans hlen)
        obtain rfl := Option.some.inj (h.id_eq.symm.trans hid)
        exact ⟨_, hc, Or.inr (Or.inl hlast)⟩
    | typed h' hc hP =>
        obtain rfl := Option.some.inj (h.raw_eq.symm.trans h'.raw_eq)
        obtain rfl := Option.some.inj (h.namelen_eq.symm.trans h'.namelen_eq)
        obtain rfl := Option.some.inj (h.off_eq.symm.trans h'.off_eq)
        obtain rfl := Option.some.inj (h.id_eq.symm.trans h'.id_eq)
        exact ⟨_, hc, Or.inr (Or.inr hP)⟩
  · rintro ⟨c, hc, hne | hlast | hP⟩
    · exact NameSafe.unterminated h.namelen_eq hc hne
    · exact NameSafe.unknown h.namelen_eq hc h.id_eq hlast
    · exact NameSafe.typed h hc hP

/-- A property of the outcome that holds of `false` and not of a fault holds
exactly if the name check ends well and the type check has it. -/
theorem nameSafe_iff {R : Option Bool → Prop} {P : Nat → Nat → Nat → Nat → Prop} {name : Bool}
    {pad : Nat} (hpad : blobPadLen attr = some pad) (hin : pad ≤ attr.length)
    (hn : attr.length < 2 ^ 32) (hfalse : R (some false)) (hnone : ¬ R none)
    (htype : ∀ {raw namelen off id}, AttrView attr raw namelen off id → raw ≤ attr.length →
      (R (typeResult attr raw off id) ↔ P raw namelen off id)) :
    R (blobmsgCheckAttr attr name) ↔ NameSafe attr name P := by
  obtain ⟨raw, hraw, rfl⟩ := Option.map_eq_some_iff.mp hpad
  obtain ⟨w, hw, rfl⟩ := exists_idLen_of_rawLen hraw
  have hlen := length_of_idLen hw
  have hle := le_alignUp_four (w % 2 ^ 24)
  by_cases hshort : w % 2 ^ 24 = 4 ∨ w % 2 ^ 24 = 5
  · have hcheck : blobmsgCheckAttr attr name = some false := by
      rw [blobmsgCheckAttr, blobLen_eq hw (by omega), Option.bind_some, if_pos (by omega)]
    rw [hcheck]
    exact ⟨fun _ => NameSafe.short hraw hshort, fun _ => hfalse⟩
  by_cases hsix : 6 ≤ attr.length
  · obtain ⟨raw, namelen, off, id, h⟩ := exists_view hsix
    obtain rfl := Option.some.inj (hraw.symm.trans h.raw_eq)
    rw [h.blobmsgCheckAttr_eq name hn (by omega)]
    by_cases hname : namelen = 0 ∧ name = true
    · rw [if_pos hname]
      exact ⟨fun _ => NameSafe.unnamed (hname.1 ▸ h.namelen_eq) hname.2, fun _ => hfalse⟩
    by_cases htoo : 6 ≤ w % 2 ^ 24 ∧ w % 2 ^ 24 < namelen + 6
    · rw [if_neg hname, if_pos htoo]
      exact ⟨fun _ => NameSafe.tooLong hraw h.namelen_eq htoo.1 htoo.2, fun _ => hfalse⟩
    rw [if_neg hname, if_neg htoo, nameSafe_iff_byte h hshort hname htoo]
    cases hc : attr[6 + namelen]? with
    | none => simpa using hnone
    | some c =>
        rw [Option.bind_some]
        by_cases hzero : c ≠ 0
        · rw [if_pos hzero]
          exact ⟨fun _ => ⟨c, rfl, Or.inl hzero⟩, fun _ => hfalse⟩
        by_cases hlast : blobmsgTypeLast < id
        · rw [if_neg hzero, if_pos hlast]
          exact ⟨fun _ => ⟨c, rfl, Or.inr (Or.inl hlast)⟩, fun _ => hfalse⟩
        · rw [if_neg hzero, if_neg hlast, htype h (by omega)]
          constructor
          · exact fun hP => ⟨c, rfl, Or.inr (Or.inr hP)⟩
          · rintro ⟨c', hc', hne | hlast' | hP⟩
            · exact absurd (Option.some.inj hc' ▸ hne) hzero
            · exact absurd hlast' hlast
            · exact hP
  · -- too short for a name length, so the raw length is below four
    have hnamelen : blobmsgNamelen (blobData attr) = none := by
      rw [blobmsgNamelen, blobData, List.length_drop, if_neg (by omega)]
    have hlt : w % 2 ^ 24 < 4 := by
      have : w % 2 ^ 24 ≤ 5 := by omega
      omega
    have hblob : blobLen attr = some ((w % 2 ^ 24 + 2 ^ 32 - 4) % 2 ^ 32) := by
      rw [blobLen, hw, Option.map_some]
    have hcheck : blobmsgCheckAttr attr name = none := by
      rw [blobmsgCheckAttr, hblob, Option.bind_some, if_neg (by omega), hnamelen, Option.bind_none]
    rw [hcheck]
    refine ⟨fun hR => absurd hR hnone, fun hsafe => ?_⟩
    cases hsafe with
    | short hraw' h =>
        obtain rfl := Option.some.inj (hraw.symm.trans hraw')
        exact absurd h hshort
    | unnamed h _ => rw [hnamelen] at h; cases h
    | tooLong _ h _ _ => rw [hnamelen] at h; cases h
    | unterminated h _ _ => rw [hnamelen] at h; cases h
    | unknown h _ _ _ => rw [hnamelen] at h; cases h
    | typed h _ _ =>
        have h := h.namelen_eq
        rw [hnamelen] at h
        cases h

/-- The last byte of an attribute that has data. -/
theorem exists_last {raw off : Nat} (hin : raw ≤ attr.length) (hlt : 4 + off < raw) :
    ∃ c, attr[raw - 1]? = some c :=
  ⟨_, List.getElem?_eq_getElem (show raw - 1 < attr.length by omega)⟩

/-- **The check reads inside the buffer exactly if** it rejects in time or the
data of a string does not start behind the attribute. -/
theorem check_isSome_iff {name : Bool} {pad : Nat} (hpad : blobPadLen attr = some pad)
    (hin : pad ≤ attr.length) (hn : attr.length < 2 ^ 32) :
    (blobmsgCheckAttr attr name).isSome ↔ CheckReads attr name := by
  have hfalse : (some false).isSome = true := rfl
  have hnone : ¬ (none : Option Bool).isSome = true := by simp
  refine @nameSafe_iff attr (fun o => o.isSome = true) _ name pad hpad hin hn hfalse hnone ?_
  intro raw namelen off id h hle
  unfold typeResult
  by_cases hid : id = blobmsgTypeString
  · rw [if_pos hid]
    by_cases hoff : 4 + off ≤ raw
    · rw [if_pos hoff]
      refine ⟨fun _ _ => hoff, fun _ => ?_⟩
      by_cases hempty : raw = 4 + off
      · rw [if_pos hempty]
        rfl
      · obtain ⟨c, hc⟩ := @exists_last attr raw off hle (by omega)
        rw [if_neg hempty, hc]
        rfl
    · rw [if_neg hoff]
      exact ⟨fun h => (by cases h), fun h => absurd (h hid) hoff⟩
  · rw [if_neg hid]
    refine ⟨fun _ h => absurd h hid, fun _ => ?_⟩
    split <;> rfl

/-- **Whatever the check accepts is sound, and it reads inside the buffer,
exactly if** it rejects in time or the name part ends inside the attribute. -/
theorem check_sound_iff {name : Bool} {pad : Nat} (hpad : blobPadLen attr = some pad)
    (hin : pad ≤ attr.length) (hn : attr.length < 2 ^ 32) :
    ((blobmsgCheckAttr attr name).isSome ∧
        (blobmsgCheckAttr attr name = some true → SoundAttr attr)) ↔ CheckRight attr name := by
  refine @nameSafe_iff attr (fun o => o.isSome = true ∧ (o = some true → SoundAttr attr)) _ name
    pad hpad hin hn ⟨rfl, fun h => by cases h⟩ (fun h => by cases h.1) ?_
  intro raw namelen off id h hle
  by_cases hid : id = blobmsgTypeString
  · have hwidth : intWidth id = none := by rw [hid]; rfl
    rw [typeResult, if_pos hid]
    by_cases hoff : 4 + off ≤ raw
    · rw [if_pos hoff]
      by_cases hempty : raw = 4 + off
      · rw [if_pos hempty]
        exact ⟨fun _ => Or.inr (Or.inr ⟨hid, Or.inl hempty⟩), fun _ => ⟨rfl, fun h => by cases h⟩⟩
      · obtain ⟨c, hc⟩ := @exists_last attr raw off hle (by omega)
        rw [if_neg hempty, hc, Option.map_some]
        by_cases hzero : c = 0
        · rw [decide_eq_true hzero]
          have hsound := h.sound_iff hle (fun _ _ => hzero ▸ hc) (fun _ => hempty)
          constructor
          · exact fun hR => Or.inl (hsound.mp (hR.2 rfl))
          · rintro (hshape | ⟨width, hw, _⟩ | ⟨_, hbad | ⟨_, c', hc', hne⟩⟩)
            · exact ⟨rfl, fun _ => hsound.mpr hshape⟩
            · rw [hwidth] at hw
              cases hw
            · exact absurd hbad hempty
            · exact absurd ((Option.some.inj (hc.symm.trans hc')) ▸ hzero) hne
        · rw [decide_eq_false hzero]
          exact ⟨fun _ => Or.inr (Or.inr ⟨hid, Or.inr ⟨by omega, c, hc, hzero⟩⟩),
            fun _ => ⟨rfl, fun h => by cases h⟩⟩
    · rw [if_neg hoff]
      refine ⟨fun hR => (by cases hR.1), fun hright => ?_⟩
      rcases hright with hshape | ⟨width, hw, _⟩ | ⟨_, hbad | ⟨hlt, _⟩⟩
      · exact absurd hshape.2 hoff
      · rw [hwidth] at hw
        cases hw
      · omega
      · omega
  · have hsound := h.sound_iff hle (fun h' => absurd h' hid) (fun h' => absurd h' hid)
    rw [typeResult, if_neg hid]
    cases hwidth : intWidth id with
    | none =>
        constructor
        · exact fun hR => Or.inl (hsound.mp (hR.2 rfl))
        · rintro (hshape | ⟨width, hw, _⟩ | ⟨hstr, _⟩)
          · exact ⟨rfl, fun _ => hsound.mpr hshape⟩
          · rw [hwidth] at hw
            cases hw
          · exact absurd hstr hid
    | some width =>
        by_cases hsize : raw = 4 + off + width
        · simp only [decide_eq_true hsize]
          constructor
          · exact fun hR => Or.inl (hsound.mp (hR.2 trivial))
          · rintro (hshape | ⟨width', hw, hne⟩ | ⟨hstr, _⟩)
            · exact ⟨rfl, fun _ => hsound.mpr hshape⟩
            · obtain rfl := Option.some.inj (hwidth.symm.trans hw)
              exact absurd hsize hne
            · exact absurd hstr hid
        · simp only [decide_eq_false hsize]
          exact ⟨fun _ => Or.inr (Or.inl ⟨width, hwidth, hsize⟩),
            fun _ => ⟨rfl, fun h => by cases h⟩⟩

end Libubox.Blobmsg
