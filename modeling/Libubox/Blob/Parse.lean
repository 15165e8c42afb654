import Libubox.Blob.Attr

/-!
# Decoding untrusted blobs

`blob_check_type` and `blob_parse`, and exactly when they and a plain
`blob_for_each_attr` stay inside an outer attribute whose own length field was
checked.  The memory given to the decoder is the outer attribute and nothing
else, so a fault is a read outside it.

The loop guard admits two things it should not: it reads a header although
fewer than four bytes are left, and it accepts raw lengths 1 to 3, for which
`blob_len` wraps.  `WellCut` says that the payload has neither, and
`decodesInside_iff` that nothing else can go wrong.
-/

namespace Libubox.Blob

open Bytes

/-! ## The source -/

/-- `BLOB_ATTR_STRING` and the bounds of the integer types. -/
def blobAttrString : Int := 3
def blobAttrInt8 : Int := 4
def blobAttrInt64 : Int := 7
def blobAttrLast : Int := 8

/-- The table `blob_type_minlen`; an index outside it is a fault. -/
def blobTypeMinlen (type : Int) : Option Nat :=
  if 0 ≤ type then ([0, 0, 0, 1, 1, 2, 4, 8] : List Nat)[type.toNat]? else none

/-- `blob_check_type`. -/
def blobCheckType (data : Mem) (len : Nat) (type : Int) : Option Bool :=
  if blobAttrLast ≤ type then some false
  else
    (blobTypeMinlen type).bind fun minlen =>
      if blobAttrInt8 ≤ type ∧ type ≤ blobAttrInt64 ∧ len ≠ minlen then some false
      else if ¬ (blobAttrInt8 ≤ type ∧ type ≤ blobAttrInt64) ∧ len < minlen then some false
      else if type = blobAttrString then data[len - 1]?.map fun c => decide (c = 0)
      else some true

/-- `struct blob_attr_info`; the callback sees the attribute only. -/
structure BlobAttrInfo where
  type : UInt32
  minlen : UInt32
  maxlen : UInt32
  validate : Option (Mem → Bool)

/-- `int type = info[id].type`. -/
def BlobAttrInfo.intType (info : BlobAttrInfo) : Int :=
  if info.type.toNat < 2 ^ 31 then info.type.toNat else (info.type.toNat : Int) - 2 ^ 32

/-- The checks `blob_parse` makes on an attribute that has a table entry. -/
def BlobAttrInfo.accepts (info : BlobAttrInfo) (pos : Mem) (len : Nat) : Option Bool :=
  (if info.intType < blobAttrLast then blobCheckType (blobData pos) len info.intType
    else some true).map fun typed =>
      typed && !(decide (info.minlen ≠ 0) && decide (len < info.minlen.toNat)) &&
        !(decide (info.maxlen ≠ 0) && decide (info.maxlen.toNat < len)) &&
        match info.validate with
        | none => true
        | some validate => validate pos

/-- `found` and the array `data`. -/
abbrev Parsed := Nat × List (Option Mem)

/-- The loop body of `blob_parse`. -/
def blobParseBody (info : Option (Nat → BlobAttrInfo)) (max : Nat) (s : Parsed) (pos : Mem) :
    Option Parsed :=
  (blobId pos).bind fun id =>
    (blobLen pos).bind fun len =>
      if max ≤ id then some s
      else
        (match info with
          | none => some true
          | some info => (info id).accepts pos len).map fun (ok : Bool) =>
            if ok then
              (if s.2[id]? = some none then s.1 + 1 else s.1, s.2.set id (some pos))
            else s

/-- `blob_parse` of a non-`NULL` attribute. -/
def blobParse (attr : Mem) (info : Option (Nat → BlobAttrInfo)) (max : Nat) : Option Parsed :=
  (blobLen attr).bind fun len =>
    forEachAttr (fun s pos => (blobParseBody info max s pos).map .next)
      (intRem len) (blobData attr) (intRem len) (0, List.replicate max none)

/-- The attributes `blob_for_each_attr(pos, attr, rem)` visits. -/
def blobAttrs (attr : Mem) : Option (List Mem) :=
  (blobLen attr).bind fun len => visited (intRem len) (blobData attr) (intRem len)

/-! ## Safety -/

/-- The header and the whole payload lie inside the memory. -/
def Inside (attr : Mem) : Prop :=
  ∃ len, blobLen attr = some len ∧ 4 + len ≤ attr.length

/-- Both decoders stay inside `outer`, and so does every attribute they hand
to the loop body or store in `data`. -/
def DecodesInside (outer : Mem) (info : Option (Nat → BlobAttrInfo)) (max : Nat) : Prop :=
  (∃ attrs, blobAttrs outer = some attrs ∧
    ∀ a ∈ attrs, a <:+ blobData outer ∧ Inside a) ∧
  ∃ found data, blobParse outer info max = some (found, data) ∧
    ∀ a, some a ∈ data → a <:+ blobData outer ∧ Inside a

/-- A payload the loop can cut into attributes: the loop never has one to
three bytes left, and no header it reaches has a raw length of one to three. -/
inductive WellCut : Mem → Prop
  | done : WellCut []
  | stop {p : Mem} {w : Nat} (hw : idLen p = some w)
      (hend : w % 2 ^ 24 = 0 ∨ p.length < alignUp 4 (w % 2 ^ 24)) : WellCut p
  | step {p : Mem} {w : Nat} (hw : idLen p = some w) (hmin : 4 ≤ w % 2 ^ 24)
      (hfit : alignUp 4 (w % 2 ^ 24) ≤ p.length)
      (rest : WellCut (p.drop (alignUp 4 (w % 2 ^ 24)))) : WellCut p

/-- The table entries that are used have a type an `int` can hold. -/
def TypesFit (attrs : List Mem) (info : Option (Nat → BlobAttrInfo)) (max : Nat) : Prop :=
  ∀ a ∈ attrs, ∀ id, blobId a = some id → id < max →
    ∀ table, info = some table → (table id).type.toNat < 2 ^ 31

/-! ## The walk -/

theorem alignUp_four_eq_zero {n : Nat} : alignUp 4 n = 0 ↔ n = 0 := by
  unfold alignUp
  omega

theorem inside_of_idLen {attr : Mem} {w : Nat} (hw : idLen attr = some w)
    (hmin : 4 ≤ w % 2 ^ 24) (hfit : w % 2 ^ 24 ≤ attr.length) : Inside attr :=
  ⟨_, blobLen_eq hw hmin, by omega⟩

/-- An attribute that lies inside the memory has a raw length of at least
four: below that `blob_len` is close to 2^32. -/
theorem four_le_of_inside {attr : Mem} {w : Nat} (hw : idLen attr = some w)
    (hsmall : attr.length < 2 ^ 31)
    (h : Inside attr) : 4 ≤ w % 2 ^ 24 := by
  obtain ⟨len, hlen, hle⟩ := h
  simp only [blobLen, hw, Option.map_some, Option.some.injEq] at hlen
  omega

/-- **A plain walk is safe exactly on well-cut payloads.** -/
theorem visited_inside_iff :
    ∀ (fuel : Nat) (p : Mem), p.length ≤ fuel → p.length < 2 ^ 31 →
      ((∃ attrs, visited fuel p p.length = some attrs ∧ ∀ a ∈ attrs, Inside a) ↔ WellCut p) := by
  intro fuel
  induction fuel with
  | zero =>
      intro p hp _
      obtain rfl : p = [] := List.length_eq_zero_iff.mp (by omega)
      exact ⟨fun _ => WellCut.done, fun _ => ⟨[], rfl, by simp⟩⟩
  | succ fuel ih =>
      intro p hp hsmall
      by_cases hnil : p.length = 0
      · obtain rfl : p = [] := List.length_eq_zero_iff.mp hnil
        exact ⟨fun _ => WellCut.done, fun _ => ⟨[], rfl, by simp⟩⟩
      rw [visited, if_neg hnil]
      cases hw : idLen p with
      | none =>
          -- one to three bytes are left and the header is read all the same
          have hpad : blobPadLen p = none := by simp [blobPadLen, blobRawLen, blobLen, hw]
          rw [hpad]
          constructor
          · rintro ⟨attrs, hattrs, _⟩
            cases hattrs
          · intro hcut
            cases hcut with
            | done => exact absurd rfl hnil
            | stop hw' _ => rw [hw] at hw'; cases hw'
            | step hw' _ _ _ => rw [hw] at hw'; cases hw'
      | some w =>
          rw [blobPadLen_eq hw, Option.bind_some]
          have hlen := length_of_idLen hw
          by_cases hstop : w % 2 ^ 24 = 0 ∨ p.length < alignUp 4 (w % 2 ^ 24)
          · have hguard : ¬ (alignUp 4 (w % 2 ^ 24) ≤ p.length ∧ 4 ≤ alignUp 4 (w % 2 ^ 24)) := by
              rcases hstop with h0 | hlong
              · rw [h0]
                simp [alignUp]
              · omega
            rw [if_neg hguard]
            exact ⟨fun _ => WellCut.stop hw hstop, fun _ => ⟨[], rfl, by simp⟩⟩
          · have hne : w % 2 ^ 24 ≠ 0 := fun h => hstop (Or.inl h)
            have hfit : alignUp 4 (w % 2 ^ 24) ≤ p.length := by omega
            have hpos : 4 ≤ alignUp 4 (w % 2 ^ 24) := by
              unfold alignUp
              omega
            have hrest : (p.drop (alignUp 4 (w % 2 ^ 24))).length
                = p.length - alignUp 4 (w % 2 ^ 24) := List.length_drop
            have ih' := ih (p.drop (alignUp 4 (w % 2 ^ 24))) (by omega) (by omega)
            rw [hrest] at ih'
            rw [if_pos ⟨hfit, hpos⟩]
            constructor
            · rintro ⟨attrs, hattrs, hinside⟩
              obtain ⟨tail, htail, rfl⟩ := Option.map_eq_some_iff.mp hattrs
              have hmin := four_le_of_inside hw hsmall (hinside p List.mem_cons_self)
              exact WellCut.step hw hmin hfit (ih'.mp
                ⟨tail, htail, fun a ha => hinside a (List.mem_cons_of_mem p ha)⟩)
            · intro hcut
              cases hcut with
              | done => exact absurd rfl hnil
              | stop hw' hend =>
                  obtain rfl := Option.some.inj (hw'.symm.trans hw)
                  exact absurd hend hstop
              | step hw' hmin _ hcut =>
                  obtain rfl := Option.some.inj (hw'.symm.trans hw)
                  obtain ⟨tail, htail, hinside⟩ := ih'.mpr hcut
                  refine ⟨p :: tail, by rw [htail]; rfl, ?_⟩
                  intro a ha
                  rcases List.mem_cons.mp ha with rfl | ha
                  · exact inside_of_idLen hw hmin (Nat.le_trans (le_alignUp_four _) hfit)
                  · exact hinside a ha

/-- A walk only moves forward. -/
theorem visited_suffix {fuel : Nat} :
    ∀ {p : Mem} {rem : Nat} {attrs : List Mem}, visited fuel p rem = some attrs →
      ∀ a ∈ attrs, a <:+ p := by
  induction fuel with
  | zero =>
      intro p rem attrs h a ha
      cases h
      cases ha
  | succ fuel ih =>
      intro p rem attrs h a ha
      rw [visited] at h
      split at h
      · cases h
        cases ha
      obtain ⟨pad, _, h⟩ := Option.bind_eq_some_iff.mp h
      split at h
      · obtain ⟨tail, htail, rfl⟩ := Option.map_eq_some_iff.mp h
        rcases List.mem_cons.mp ha with rfl | ha
        · exact List.suffix_rfl
        · exact (ih htail a ha).trans (List.drop_suffix pad p)
      · cases h
        cases ha

/-! ## The loop body of `blob_parse` -/

/-- On an attribute inside the memory the type check reads nothing else,
unless its type indexes the table from below. -/
theorem blobCheckType_isSome {attr : Mem} {len : Nat} {type : Int}
    (hlen : 4 + len ≤ attr.length) :
    (blobCheckType (blobData attr) len type).isSome ↔ 0 ≤ type ∨ blobAttrLast ≤ type := by
  unfold blobCheckType
  by_cases hlast : blobAttrLast ≤ type
  · rw [if_pos hlast]
    exact ⟨fun _ => Or.inr hlast, fun _ => rfl⟩
  · rw [if_neg hlast]
    by_cases hneg : 0 ≤ type
    · refine ⟨fun _ => Or.inl hneg, fun _ => ?_⟩
      unfold blobAttrLast at hlast
      obtain ⟨n, rfl⟩ := Int.eq_ofNat_of_zero_le hneg
      have hn : n < 8 := by omega
      obtain ⟨minlen, hminlen⟩ : ∃ m, ([0, 0, 0, 1, 1, 2, 4, 8] : List Nat)[n]? = some m :=
        ⟨_, List.getElem?_eq_getElem (by simpa using hn)⟩
      have hstring : (n : Int) = blobAttrString → minlen = 1 := by
        intro h
        obtain rfl : n = 3 := by unfold blobAttrString at h; omega
        simpa using hminlen.symm
      simp only [blobTypeMinlen, if_pos hneg, Int.toNat_natCast, hminlen, Option.bind_some]
      split
      · rfl
      split
      · rfl
      split
      · next hnot hshort hstr =>
          have hone := hstring hstr
          have hpos : 0 < len := by
            unfold blobAttrString at hstr
            unfold blobAttrInt8 blobAttrInt64 at hshort
            omega
          have hget : len - 1 < (blobData attr).length := by
            rw [blobData, List.length_drop]
            omega
          rw [List.getElem?_eq_getElem hget]
          rfl
      · rfl
    · have hnone : blobTypeMinlen type = none := if_neg hneg
      rw [hnone]
      simp [hneg, hlast]

/-- What the type check of a table entry needs. -/
theorem accepts_isSome {info : BlobAttrInfo} {attr : Mem} {len : Nat}
    (hlen : 4 + len ≤ attr.length) :
    (info.accepts attr len).isSome ↔ info.type.toNat < 2 ^ 31 := by
  have htype := UInt32.toNat_lt info.type
  rw [BlobAttrInfo.accepts, Option.isSome_map]
  by_cases hlast : info.intType < blobAttrLast
  · rw [if_pos hlast, blobCheckType_isSome hlen]
    unfold blobAttrLast BlobAttrInfo.intType at *
    split <;> omega
  · rw [if_neg hlast]
    unfold blobAttrLast BlobAttrInfo.intType at *
    simp only [Option.isSome_some, true_iff]
    by_contra hbig
    rw [if_neg hbig] at hlast
    omega

/-- One turn of `blob_parse` on an attribute inside the memory. -/
theorem blobParseBody_isSome {info : Option (Nat → BlobAttrInfo)} {max : Nat} {s : Parsed}
    {attr : Mem} (h : Inside attr) :
    (blobParseBody info max s attr).isSome ↔ TypesFit [attr] info max := by
  obtain ⟨len, hlen, hle⟩ := h
  obtain ⟨w, hw⟩ := exists_idLen (show 4 ≤ attr.length by omega)
  have hid : blobId attr = some (w / 2 ^ 24 % 2 ^ 7) := by rw [blobId, hw, Option.map_some]
  rw [blobParseBody, hid, hlen, Option.bind_some, Option.bind_some]
  by_cases hmax : max ≤ w / 2 ^ 24 % 2 ^ 7
  · rw [if_pos hmax]
    refine ⟨fun _ a ha id ha' hlt => ?_, fun _ => rfl⟩
    obtain rfl := List.mem_singleton.mp ha
    obtain rfl := Option.some.inj (hid.symm.trans ha')
    omega
  · rw [if_neg hmax, Option.isSome_map]
    cases info with
    | none =>
        refine ⟨fun _ a _ id _ _ table htable => (by cases htable), fun _ => rfl⟩
    | some table =>
        rw [accepts_isSome hle]
        constructor
        · intro hfit a ha id ha' _ table' htable
          obtain rfl := List.mem_singleton.mp ha
          obtain rfl := Option.some.inj (hid.symm.trans ha')
          obtain rfl := Option.some.inj htable
          exact hfit
        · exact fun hfit => hfit attr (List.mem_singleton.mpr rfl) _ hid (by omega) table rfl

/-- A turn stores nothing but its own attribute. -/
theorem mem_blobParseBody {info : Option (Nat → BlobAttrInfo)} {max : Nat} {s s' : Parsed}
    {attr : Mem} (h : blobParseBody info max s attr = some s') :
    ∀ a, some a ∈ s'.2 → a = attr ∨ some a ∈ s.2 := by
  intro a ha
  rw [blobParseBody] at h
  obtain ⟨id, _, h⟩ := Option.bind_eq_some_iff.mp h
  obtain ⟨len, _, h⟩ := Option.bind_eq_some_iff.mp h
  split at h
  · cases h
    exact Or.inr ha
  obtain ⟨ok, _, rfl⟩ := Option.map_eq_some_iff.mp h
  cases ok with
  | false => exact Or.inr ha
  | true =>
      rcases List.mem_or_eq_of_mem_set ha with hold | hnew
      · exact Or.inr hold
      · exact Or.inl (Option.some.inj hnew)

/-- The whole loop: no fault exactly when the used types fit, and only visited
attributes are stored. -/
theorem foldlM_blobParseBody {info : Option (Nat → BlobAttrInfo)} {max : Nat} :
    ∀ (attrs : List Mem) (s : Parsed), (∀ a ∈ attrs, Inside a) →
      ((attrs.foldlM (blobParseBody info max) s).isSome ↔ TypesFit attrs info max) ∧
      ∀ s', attrs.foldlM (blobParseBody info max) s = some s' →
        ∀ a, some a ∈ s'.2 → a ∈ attrs ∨ some a ∈ s.2 := by
  intro attrs
  induction attrs with
  | nil =>
      intro s _
      refine ⟨⟨fun _ a ha => (by cases ha), fun _ => rfl⟩, fun s' hs' a ha => ?_⟩
      obtain rfl : s = s' := Option.some.inj hs'
      exact Or.inr ha
  | cons attr attrs ih =>
      intro s hinside
      have hattr := hinside attr List.mem_cons_self
      have hhead := @blobParseBody_isSome info max s attr hattr
      have hcons : TypesFit (attr :: attrs) info max
          ↔ TypesFit [attr] info max ∧ TypesFit attrs info max := by
        simp [TypesFit]
      rw [List.foldlM_cons, hcons, ← hhead]
      cases hbody : blobParseBody info max s attr with
      | none => simp
      | some s₁ =>
          obtain ⟨hiff, hmem⟩ := ih s₁ fun a ha => hinside a (List.mem_cons_of_mem attr ha)
          refine ⟨by simpa using hiff, fun s' hs' a ha => ?_⟩
          rcases hmem s' (by simpa using hs') a ha with hin | hold
          · exact Or.inl (List.mem_cons_of_mem attr hin)
          · rcases mem_blobParseBody hbody a hold with rfl | hs
            · exact Or.inl List.mem_cons_self
            · exact Or.inr hs

/-! ## The result -/

/-- **The blob decoders stay inside an outer attribute exactly on well-cut
payloads**, given table types an `int` can hold. -/
theorem decodesInside_iff (buf : Mem) (raw : Nat) (hraw : blobRawLen buf = some raw)
    (hmin : 4 ≤ raw) (hfit : raw ≤ buf.length) (info : Option (Nat → BlobAttrInfo)) (max : Nat) :
    DecodesInside (buf.take raw) info max ↔
      WellCut (blobData (buf.take raw)) ∧
        ∀ attrs, blobAttrs (buf.take raw) = some attrs → TypesFit attrs info max := by
  obtain ⟨w, hw⟩ := exists_idLen (show 4 ≤ buf.length by omega)
  obtain rfl : w % 2 ^ 24 = raw := Option.some.inj ((blobRawLen_eq hw).symm.trans hraw)
  have hword : idLen (buf.take (w % 2 ^ 24)) = some w := by
    rw [idLen, if_pos (by rw [List.length_take]; omega), List.take_take, Nat.min_eq_left hmin,
      ← hw, idLen, if_pos (by omega)]
  generalize houter : buf.take (w % 2 ^ 24) = outer at *
  have hlen : outer.length = w % 2 ^ 24 := by
    rw [← houter, List.length_take]
    omega
  have hsmall : w % 2 ^ 24 < 2 ^ 24 := Nat.mod_lt _ (by decide)
  have hdata : (blobData outer).length = w % 2 ^ 24 - 4 := by
    rw [blobData, List.length_drop, hlen]
  have hattrs : blobAttrs outer
      = visited (blobData outer).length (blobData outer) (blobData outer).length := by
    rw [blobAttrs, blobLen_eq hword hmin, Option.bind_some, intRem_of_lt (by omega), hdata]
  have hparse : blobParse outer info max = (blobAttrs outer).bind fun attrs =>
      attrs.foldlM (blobParseBody info max) (0, List.replicate max none) := by
    rw [blobParse, blobLen_eq hword hmin, Option.bind_some, intRem_of_lt (by omega),
      forEachAttr_eq_foldlM, hattrs, hdata]
  have hwalk := visited_inside_iff _ (blobData outer) (Nat.le_refl _) (by omega)
  rw [← hattrs] at hwalk
  have hnew : ∀ a : Mem, some a ∉ List.replicate max (none : Option Mem) := by
    intro a ha
    cases (List.mem_replicate.mp ha).2
  constructor
  · rintro ⟨⟨attrs, hvis, hin⟩, found, data, hrun, _⟩
    refine ⟨hwalk.mp ⟨attrs, hvis, fun a ha => (hin a ha).2⟩, fun attrs' hvis' => ?_⟩
    obtain rfl := Option.some.inj (hvis.symm.trans hvis')
    rw [hparse, hvis, Option.bind_some] at hrun
    exact (foldlM_blobParseBody attrs _ fun a ha => (hin a ha).2).1.mp (by rw [hrun]; rfl)
  · rintro ⟨hcut, htypes⟩
    obtain ⟨attrs, hvis, hin⟩ := hwalk.mpr hcut
    have hsuffix : ∀ a ∈ attrs, a <:+ blobData outer :=
      visited_suffix (hattrs.symm.trans hvis)
    obtain ⟨hiff, hmem⟩ := @foldlM_blobParseBody info max attrs (0, List.replicate max none) hin
    obtain ⟨s, hs⟩ := Option.isSome_iff_exists.mp (hiff.mpr (htypes attrs hvis))
    refine ⟨⟨attrs, hvis, fun a ha => ⟨hsuffix a ha, hin a ha⟩⟩, s.1, s.2, ?_, ?_⟩
    · rw [hparse, hvis, Option.bind_some, hs]
    · intro a ha
      rcases hmem s hs a ha with hin' | hold
      · exact ⟨hsuffix a hin', hin a hin'⟩
      · exact absurd hold (hnew a)

/-- A two-attribute message on which the theorem applies. -/
theorem decodesInside_iff_message :
    DecodesInside [1, 0, 0, 12, 2, 0, 0, 5, 9, 0, 0, 0] none 4 ↔
      WellCut (blobData [1, 0, 0, 12, 2, 0, 0, 5, 9, 0, 0, 0]) ∧
        ∀ attrs, blobAttrs [1, 0, 0, 12, 2, 0, 0, 5, 9, 0, 0, 0] = some attrs →
          TypesFit attrs none 4 :=
  decodesInside_iff [1, 0, 0, 12, 2, 0, 0, 5, 9, 0, 0, 0] 12 (by decide) (by decide) (by decide)
    none 4

/-- An outer attribute of raw length 8 whose only child claims a raw length of
one: the child is handed on, and its `blob_len` is 2^32 - 3. -/
theorem not_decodesInside_raw_len_one :
    blobRawLen [1, 0, 0, 8, 2, 0, 0, 1] = some 8 ∧
      ¬ DecodesInside [1, 0, 0, 8, 2, 0, 0, 1] none 4 := by
  have hchild : idLen [2, 0, 0, 1] = some 33554433 := by decide
  have hlen : blobLen [1, 0, 0, 8, 2, 0, 0, 1] = some 4 := by decide
  refine ⟨by decide, ?_⟩
  rintro ⟨⟨attrs, hvis, hin⟩, _⟩
  rw [blobAttrs, hlen, Option.bind_some, intRem_of_lt (by decide)] at hvis
  have hcut : WellCut [2, 0, 0, 1] :=
    (visited_inside_iff 4 [2, 0, 0, 1] (Nat.le_refl _) (by decide)).mp
      ⟨attrs, hvis, fun a ha => (hin a ha).2⟩
  cases hcut with
  | stop hw hend =>
      obtain rfl := Option.some.inj (hchild.symm.trans hw)
      simp [alignUp] at hend
  | step hw hmin _ _ =>
      obtain rfl := Option.some.inj (hchild.symm.trans hw)
      omega

end Libubox.Blob
