import Libubox.Blobmsg.Check

/-!
# Decoding untrusted messages

`blobmsg_check_array`, `blobmsg_parse_array` and `blobmsg_parse` over an
arbitrary buffer, and the exact conditions under which they read inside it.

All three walk attributes and hand each to `blobmsg_check_attr`, some only if
it fits a type or a policy, and leave the loop when it is rejected.
`WalkSafe` is the walk with a condition on the attributes it reaches.
-/

namespace Libubox.Blobmsg

open Bytes Blob

/-! ## The source -/

/-- The loop body of `blobmsg_check_array`; the state is whether the loop goes
on and the number of elements. -/
def checkArrayBody (type : Int) (name : Bool) (s : Bool × Int) (cur : Mem) :
    Option (Flow (Bool × Int)) :=
  (blobId cur).bind fun id =>
    if type ≠ blobmsgTypeUnspec ∧ (id : Int) ≠ type then some (.stop (false, s.2))
    else
      (blobmsgCheckAttr cur name).map fun ok =>
        if ok then .next (true, s.2 + 1) else .stop (false, s.2)

/-- `blobmsg_check_array`. -/
def blobmsgCheckArray (attr : Mem) (type : Int) : Option Int :=
  (blobId attr).bind fun id =>
    if id = blobmsgTypeTable ∨ id = blobmsgTypeArray then
      (blobmsgForEachAttr (checkArrayBody type (decide (id = blobmsgTypeTable))) attr
        (true, 0)).map fun s => if s.1 then s.2 else -1
    else some (-1)

/-- `struct blobmsg_policy`. -/
structure BlobmsgPolicy where
  name : Option Mem
  type : Nat

/-- The loop body of `blobmsg_parse_array`; the state is the return value so
far, `i` and `tb`. -/
def parseArrayBody (policy : List BlobmsgPolicy) (s : Bool × Nat × List (Option Mem))
    (attr : Mem) : Option (Flow (Bool × Nat × List (Option Mem))) :=
  policy[s.2.1]?.bind fun entry =>
    (blobId attr).bind fun id =>
      if entry.type ≠ blobmsgTypeUnspec ∧ id ≠ entry.type then some (.next s)
      else
        (blobmsgCheckAttr attr false).bind fun ok =>
          if ok then
            s.2.2[s.2.1]?.map fun slot =>
              if slot.isSome then .next s
              else if s.2.1 + 1 = policy.length then
                .stop (true, s.2.1 + 1, s.2.2.set s.2.1 (some attr))
              else .next (true, s.2.1 + 1, s.2.2.set s.2.1 (some attr))
          else some (.stop (false, s.2))

/-- `blobmsg_parse_array` of all of `data`: whether it returned `0`, and
`tb`. -/
def blobmsgParseArray (policy : List BlobmsgPolicy) (data : Mem) :
    Option (Bool × List (Option Mem)) :=
  (forEachAttr (parseArrayBody policy) data.length data data.length
    (true, 0, List.replicate policy.length none)).map fun s => (s.1, s.2.2)

/-- `strcmp(s, mem) == 0` for a C string `s`. -/
def strcmpEq : Mem → Mem → Option Bool
  | _, [] => none
  | [], c :: _ => some (decide (c = 0))
  | a :: s, c :: mem =>
      if a = c then if a = 0 then some true else strcmpEq s mem else some false

/-- One entry of the inner loop of `blobmsg_parse`: the new value of its slot
in `tb`, or `none` to return `-1`.  `pslen` is a `uint8_t`. -/
def parseEntry (attr : Mem) (entry : BlobmsgPolicy) (slot : Option Mem) :
    Option (Option (Option Mem)) :=
  match entry.name with
  | none => some (some slot)
  | some name =>
      (blobId attr).bind fun id =>
        if entry.type ≠ blobmsgTypeUnspec ∧ id ≠ entry.type then some (some slot)
        else
          (blobmsgNamelen (blobData attr)).bind fun namelen =>
            if namelen ≠ name.length % 2 ^ 8 then some (some slot)
            else
              (blobmsgCheckAttr attr true).bind fun ok =>
                if ok then
                  if slot.isSome then some (some slot)
                  else
                    (strcmpEq name (blobmsgName attr)).map fun eq =>
                      some (if eq then some attr else none)
                else some none

/-- The inner loop of `blobmsg_parse`. -/
def parseEntries (attr : Mem) : List (BlobmsgPolicy × Option Mem) →
    Option (Bool × List (Option Mem))
  | [] => some (true, [])
  | (entry, slot) :: rest =>
      (parseEntry attr entry slot).bind fun
        | none => some (false, slot :: rest.map Prod.snd)
        | some slot => (parseEntries attr rest).map fun r => (r.1, slot :: r.2)

/-- The loop body of `blobmsg_parse`; the state is the return value so far and
`tb`. -/
def parseBody (policy : List BlobmsgPolicy) (s : Bool × List (Option Mem)) (attr : Mem) :
    Option (Flow (Bool × List (Option Mem))) :=
  (parseEntries attr (policy.zip s.2)).map fun r => if r.1 then .next r else .stop r

/-- `blobmsg_parse` of all of `data`: whether it returned `0`, and `tb`. -/
def blobmsgParse (policy : List BlobmsgPolicy) (data : Mem) : Option (Bool × List (Option Mem)) :=
  forEachAttr (parseBody policy) data.length data data.length
    (true, List.replicate policy.length none)

/-! ## Walks -/

/-- A walk that reads inside the buffer, with `rem` bytes to go at `p`: a
header is only read if all of it is left, every attribute is `Safe`, and the
walk ends there or goes on behind its padding. -/
inductive WalkSafe {τ : Type} (Safe Leaves : τ → Mem → Prop) (next : τ → Mem → τ) :
    τ → Mem → Nat → Prop
  | done {t : τ} {p : Mem} : WalkSafe Safe Leaves next t p 0
  | stop {t : τ} {p : Mem} {rem raw : Nat} (hraw : blobRawLen p = some raw)
      (hend : raw = 0 ∨ rem < alignUp 4 raw) : WalkSafe Safe Leaves next t p rem
  | turn {t : τ} {p : Mem} {rem raw : Nat} (hraw : blobRawLen p = some raw)
      (hpos : raw ≠ 0) (hfit : alignUp 4 raw ≤ rem) (hsafe : Safe t p)
      (rest : ¬ Leaves t p → WalkSafe Safe Leaves next (next t p) (p.drop (alignUp 4 raw))
        (rem - alignUp 4 raw)) :
      WalkSafe Safe Leaves next t p rem

/-- An attribute whose padded length lies inside the memory. -/
def Held (attr : Mem) : Prop :=
  attr.length < 2 ^ 32 ∧ ∃ pad, blobPadLen attr = some pad ∧ pad ≤ attr.length

/-- **A loop reads inside the buffer exactly if its walk does**, given what one
turn does: `φ` is the part of the state the conditions depend on. -/
theorem forEachAttr_isSome_iff {σ τ : Type} {body : σ → Mem → Option (Flow σ)}
    {Safe Leaves : τ → Mem → Prop} {next : τ → Mem → τ} {φ : σ → τ} {Inv : σ → Prop}
    (hsafe : ∀ {s p}, Inv s → Held p → ((body s p).isSome ↔ Safe (φ s) p))
    (hnext : ∀ {s s' p}, Inv s → Held p → body s p = some (.next s') →
      ¬ Leaves (φ s) p ∧ φ s' = next (φ s) p ∧ Inv s')
    (hstop : ∀ {s s' p}, Inv s → Held p → body s p = some (.stop s') → Leaves (φ s) p) :
    ∀ (fuel : Nat) {p : Mem} {rem : Nat} {s : σ}, rem ≤ fuel → rem ≤ p.length →
      p.length < 2 ^ 32 → Inv s →
      ((forEachAttr body fuel p rem s).isSome ↔ WalkSafe Safe Leaves next (φ s) p rem) := by
  intro fuel
  induction fuel with
  | zero =>
      intro p rem s hfuel _ _ _
      obtain rfl : rem = 0 := by omega
      exact ⟨fun _ => WalkSafe.done, fun _ => rfl⟩
  | succ fuel ih =>
      intro p rem s hfuel hlen hn hinv
      by_cases hzero : rem = 0
      · subst hzero
        rw [forEachAttr, if_pos rfl]
        exact ⟨fun _ => WalkSafe.done, fun _ => rfl⟩
      rw [forEachAttr, if_neg hzero]
      cases hraw : blobRawLen p with
      | none =>
          have hpad : blobPadLen p = none := by rw [blobPadLen, hraw, Option.map_none]
          rw [hpad, Option.bind_none]
          refine ⟨fun h => (by cases h), fun h => ?_⟩
          cases h with
          | done => exact absurd rfl hzero
          | stop h _ => rw [hraw] at h; cases h
          | turn h _ _ _ _ => rw [hraw] at h; cases h
      | some raw =>
          have hpad : blobPadLen p = some (alignUp 4 raw) := by
            rw [blobPadLen, hraw, Option.map_some]
          have hzeropad := @alignUp_four_eq_zero raw
          have hmod := alignUp_four_mod raw
          rw [hpad, Option.bind_some]
          by_cases hend : raw = 0 ∨ rem < alignUp 4 raw
          · rw [if_neg (by omega)]
            exact ⟨fun _ => WalkSafe.stop hraw hend, fun _ => rfl⟩
          rw [if_pos ⟨by omega, by omega⟩]
          have hheld : Held p := ⟨hn, _, hpad, by omega⟩
          have hsafe' := hsafe hinv hheld
          have hrest : (p.drop (alignUp 4 raw)).length = p.length - alignUp 4 raw :=
            List.length_drop
          cases hbody : body s p with
          | none =>
              rw [hbody] at hsafe'
              refine ⟨fun h => (by cases h), fun h => ?_⟩
              cases h with
              | done => exact absurd rfl hzero
              | stop h hend' =>
                  obtain rfl := Option.some.inj (hraw.symm.trans h)
                  exact absurd hend' hend
              | turn h _ _ hs _ => exact absurd (hsafe'.mpr hs) (by simp)
          | some flow =>
              rw [hbody] at hsafe'
              have hs := hsafe'.mp rfl
              cases flow with
              | stop s' =>
                  have hleaves := hstop hinv hheld hbody
                  exact ⟨fun _ => WalkSafe.turn hraw (by omega) (by omega) hs
                    (fun h => absurd hleaves h), fun _ => rfl⟩
              | next s' =>
                  obtain ⟨hgoes, hφ, hinv'⟩ := hnext hinv hheld hbody
                  have ih' := @ih (p.drop (alignUp 4 raw)) (rem - alignUp 4 raw) s' (by omega)
                    (by omega) (by omega) hinv'
                  rw [Option.bind_some, Flow.andThen, ih', hφ]
                  constructor
                  · exact fun h => WalkSafe.turn hraw (by omega) (by omega) hs (fun _ => h)
                  · intro h
                    cases h with
                    | done => exact absurd rfl hzero
                    | stop h hend' =>
                        obtain rfl := Option.some.inj (hraw.symm.trans h)
                        exact absurd hend' hend
                    | turn h _ _ _ rest =>
                        obtain rfl := Option.some.inj (hraw.symm.trans h)
                        exact rest hgoes

/-! ## The conditions -/

/-- `cur` passes the type filter of `blobmsg_check_array`. -/
def FitsType (type : Int) (cur : Mem) : Prop :=
  type = blobmsgTypeUnspec ∨ ∃ id, blobId cur = some id ∧ (id : Int) = type

/-- `blobmsg_check_array` reads inside the buffer. -/
def ArrayReads (attr : Mem) (type : Int) : Prop :=
  ∀ id, blobId attr = some id → id = blobmsgTypeTable ∨ id = blobmsgTypeArray →
    (blobIsExtended attr = some true → 6 ≤ attr.length) ∧
    ∀ rem data, blobmsgForEachStart attr = some (rem, data) →
      WalkSafe
        (fun (_ : Unit) cur => FitsType type cur → CheckReads cur (decide (id = blobmsgTypeTable)))
        (fun _ cur => ¬ FitsType type cur ∨
          blobmsgCheckAttr cur (decide (id = blobmsgTypeTable)) = some false)
        (fun _ _ => ()) () data rem

/-- `attr` passes the type filter of policy entry `i`. -/
def fitsEntry (policy : List BlobmsgPolicy) (i : Nat) (attr : Mem) : Bool :=
  policy[i]?.any fun entry =>
    decide (entry.type = blobmsgTypeUnspec) || decide (blobId attr = some entry.type)

/-- `blobmsg_parse_array` reads inside the buffer; `i` entries are filled. -/
def ParseArrayReads (policy : List BlobmsgPolicy) (data : Mem) : Prop :=
  WalkSafe (fun i attr => fitsEntry policy i attr = true → CheckReads attr false)
    (fun i attr => fitsEntry policy i attr = true ∧
      (blobmsgCheckAttr attr false = some false ∨ i + 1 = policy.length))
    (fun i attr => if fitsEntry policy i attr then i + 1 else i) 0 data data.length

/-- `attr` passes the type filter of an entry with a name. -/
def Typed (attr : Mem) (entry : BlobmsgPolicy) : Prop :=
  entry.name ≠ none ∧ (entry.type = blobmsgTypeUnspec ∨ blobId attr = some entry.type)

/-- `attr` has in addition a name as long as that of the entry, modulo 256. -/
def Matches (attr : Mem) (entry : BlobmsgPolicy) : Prop :=
  Typed attr entry ∧ ∃ name, entry.name = some name ∧
    blobmsgNamelen (blobData attr) = some (name.length % 2 ^ 8)

/-- `blobmsg_parse` reads inside the buffer. -/
def ParseReads (policy : List BlobmsgPolicy) (data : Mem) : Prop :=
  WalkSafe
    (fun (_ : Unit) attr => (∀ entry ∈ policy, Typed attr entry → 6 ≤ attr.length) ∧
      ∀ entry ∈ policy, Matches attr entry → CheckReads attr true)
    (fun _ attr => (∃ entry ∈ policy, Matches attr entry) ∧
      blobmsgCheckAttr attr true = some false)
    (fun _ _ => ()) () data data.length

/-! ## `blobmsg_check_array` -/

theorem Held.isSome_iff {attr : Mem} (h : Held attr) (name : Bool) :
    (blobmsgCheckAttr attr name).isSome ↔ CheckReads attr name := by
  obtain ⟨hn, pad, hpad, hin⟩ := h
  exact check_isSome_iff hpad hin hn

theorem Held.exists_id {attr : Mem} (h : Held attr) : ∃ id, blobId attr = some id := by
  obtain ⟨_, pad, hpad, _⟩ := h
  obtain ⟨raw, hraw, _⟩ := Option.map_eq_some_iff.mp hpad
  obtain ⟨w, hw, _⟩ := exists_idLen_of_rawLen hraw
  exact ⟨_, by rw [blobId, hw, Option.map_some]⟩

/-- A turn on an attribute that passes the type filter. -/
theorem checkArrayBody_fits {type : Int} {name : Bool} {s : Bool × Int} {cur : Mem}
    (h : Held cur) (hfits : FitsType type cur) :
    checkArrayBody type name s cur = (blobmsgCheckAttr cur name).map fun ok =>
      if ok then .next (true, s.2 + 1) else .stop (false, s.2) := by
  obtain ⟨id, hid⟩ := h.exists_id
  have hfilter : ¬ (type ≠ blobmsgTypeUnspec ∧ (id : Int) ≠ type) := by
    rintro ⟨hne, hne'⟩
    rcases hfits with h0 | ⟨id', hid', heq⟩
    · exact hne h0
    · obtain rfl := Option.some.inj (hid.symm.trans hid')
      exact hne' heq
  rw [checkArrayBody, hid, Option.bind_some, if_neg hfilter]

theorem checkArrayBody_not_fits {type : Int} {name : Bool} {s : Bool × Int} {cur : Mem}
    (h : Held cur) (hfits : ¬ FitsType type cur) :
    checkArrayBody type name s cur = some (.stop (false, s.2)) := by
  obtain ⟨id, hid⟩ := h.exists_id
  have hfilter : type ≠ blobmsgTypeUnspec ∧ (id : Int) ≠ type :=
    ⟨fun h0 => hfits (Or.inl h0), fun heq => hfits (Or.inr ⟨id, hid, heq⟩)⟩
  rw [checkArrayBody, hid, Option.bind_some, if_pos hfilter]

/-- The loop of `blobmsg_check_array`. -/
theorem checkArray_loop {type : Int} {name : Bool} {p : Mem} {rem : Nat} {s : Bool × Int}
    (hlen : rem ≤ p.length) (hn : p.length < 2 ^ 32) :
    (forEachAttr (checkArrayBody type name) rem p rem s).isSome ↔
      WalkSafe (fun (_ : Unit) cur => FitsType type cur → CheckReads cur name)
        (fun _ cur => ¬ FitsType type cur ∨ blobmsgCheckAttr cur name = some false)
        (fun _ _ => ()) () p rem := by
  refine @forEachAttr_isSome_iff _ Unit (checkArrayBody type name) _ _ (fun _ _ => ())
    (fun _ => ()) (fun _ => True) ?_ ?_ ?_ rem p rem s (Nat.le_refl _) hlen hn trivial
  · intro s cur _ hheld
    by_cases hfits : FitsType type cur
    · rw [checkArrayBody_fits hheld hfits, Option.isSome_map, hheld.isSome_iff name]
      exact ⟨fun h _ => h, fun h => h hfits⟩
    · rw [checkArrayBody_not_fits hheld hfits]
      exact ⟨fun _ h => absurd h hfits, fun _ => rfl⟩
  · intro s s' cur _ hheld hbody
    refine ⟨?_, rfl, trivial⟩
    by_cases hfits : FitsType type cur
    · rw [checkArrayBody_fits hheld hfits] at hbody
      obtain ⟨ok, hok, hflow⟩ := Option.map_eq_some_iff.mp hbody
      rintro (h | h)
      · exact h hfits
      · obtain rfl := Option.some.inj (hok.symm.trans h)
        cases hflow
    · rw [checkArrayBody_not_fits hheld hfits] at hbody
      cases hbody
  · intro s s' cur _ hheld hbody
    by_cases hfits : FitsType type cur
    · rw [checkArrayBody_fits hheld hfits] at hbody
      obtain ⟨ok, hok, hflow⟩ := Option.map_eq_some_iff.mp hbody
      cases ok with
      | false => exact Or.inr hok
      | true => cases hflow
    · exact Or.inl hfits

/-- The start of `blobmsg_for_each_attr`: it reads the name length of an
extended attribute, and what is left to walk lies inside the memory. -/
theorem forEachStart_isSome {attr : Mem} (h : Held attr) :
    ((blobmsgForEachStart attr).isSome ↔ (blobIsExtended attr = some true → 6 ≤ attr.length)) ∧
      ∀ rem data, blobmsgForEachStart attr = some (rem, data) →
        rem ≤ data.length ∧ data.length < 2 ^ 32 := by
  obtain ⟨hn, pad, hpad, hin⟩ := h
  obtain ⟨raw, hraw, rfl⟩ := Option.map_eq_some_iff.mp hpad
  have hle := le_alignUp_four raw
  obtain ⟨w, hw, -⟩ := exists_idLen_of_rawLen hraw
  obtain ⟨extended, hextended⟩ : ∃ extended, blobIsExtended attr = some extended :=
    ⟨_, by rw [blobIsExtended, hw, Option.map_some]⟩
  cases hoff : blobmsgDataOffset attr with
  | none =>
      have hstart : blobmsgForEachStart attr = none := by
        rw [blobmsgForEachStart, blobmsgData, hoff, Option.map_none]
        cases blobmsgDataLen attr <;> rfl
      rw [hstart]
      refine ⟨⟨fun h => (by cases h), fun h => ?_⟩, fun rem data h => (by cases h)⟩
      rw [blobmsgDataOffset, hextended, Option.bind_some] at hoff
      cases extended with
      | false => cases hoff
      | true =>
          have hlen := h hextended
          rw [if_pos rfl, blobmsgNamelen, if_pos (by rw [blobData, List.length_drop]; omega)] at hoff
          cases hoff
  | some off =>
      have hstart : blobmsgForEachStart attr
          = some (((raw : Int) - 4 - off).toNat, (blobData attr).drop off) := by
        rw [blobmsgForEachStart, dataLen_of_rawLen hraw hoff, Option.bind_some, blobmsgData, hoff,
          Option.map_some, Option.map_some]
      rw [hstart]
      refine ⟨⟨fun _ h => ?_, fun _ => rfl⟩, ?_⟩
      · rw [blobmsgDataOffset, h, Option.bind_some, if_pos rfl] at hoff
        obtain ⟨namelen, hlen, -⟩ := Option.map_eq_some_iff.mp hoff
        have := (blobmsgNamelen_lt hlen).2
        rw [blobData, List.length_drop] at this
        omega
      · intro rem data h
        cases h
        simp only [blobData, List.length_drop]
        omega

/-- **`blobmsg_check_array` reads inside the buffer exactly if `ArrayReads`.** -/
theorem checkArray_isSome_iff {attr : Mem} (h : Held attr) (type : Int) :
    (blobmsgCheckArray attr type).isSome ↔ ArrayReads attr type := by
  obtain ⟨id, hid⟩ := h.exists_id
  obtain ⟨hstart, hroom⟩ := forEachStart_isSome h
  rw [blobmsgCheckArray, hid, Option.bind_some]
  by_cases hcontainer : id = blobmsgTypeTable ∨ id = blobmsgTypeArray
  · rw [if_pos hcontainer, Option.isSome_map, blobmsgForEachAttr]
    cases hopt : blobmsgForEachStart attr with
    | none =>
        rw [hopt] at hstart
        refine ⟨fun h => (by cases h), fun hreads => ?_⟩
        exact absurd (hstart.mpr (hreads id hid hcontainer).1) (by simp)
    | some start =>
        obtain ⟨rem, data⟩ := start
        obtain ⟨hlen, hn⟩ := hroom rem data hopt
        rw [hopt] at hstart
        have hloop := @checkArray_loop type (decide (id = blobmsgTypeTable)) data rem (true, 0)
          hlen hn
        rw [Option.bind_some]
        refine hloop.trans ⟨fun hwalk id' hid' _ => ⟨hstart.mp rfl, fun rem' data' h' => ?_⟩,
          fun hreads => (hreads id hid hcontainer).2 rem data hopt⟩
        obtain rfl := Option.some.inj (hid.symm.trans hid')
        rw [hopt] at h'
        cases h'
        exact hwalk
  · rw [if_neg hcontainer]
    refine ⟨fun _ id' hid' hc => ?_, fun _ => rfl⟩
    obtain rfl := Option.some.inj (hid.symm.trans hid')
    exact absurd hc hcontainer

/-! ## `blobmsg_parse_array` -/

/-- The state of `blobmsg_parse_array`: the slots from `i` on are empty. -/
structure ArrayState (policy : List BlobmsgPolicy) (s : Bool × Nat × List (Option Mem)) :
    Prop where
  lt : s.2.1 < policy.length
  empty : s.2.2.drop s.2.1 = List.replicate (policy.length - s.2.1) none

theorem ArrayState.slot {policy : List BlobmsgPolicy} {s : Bool × Nat × List (Option Mem)}
    (h : ArrayState policy s) : s.2.2[s.2.1]? = some none := by
  have hget : (s.2.2.drop s.2.1)[0]? = some none := by
    have hlt := h.lt
    rw [h.empty, List.getElem?_replicate, if_pos (by omega)]
  rwa [List.getElem?_drop, Nat.add_zero] at hget

theorem ArrayState.set {policy : List BlobmsgPolicy} {s : Bool × Nat × List (Option Mem)}
    (h : ArrayState policy s) (hnext : s.2.1 + 1 ≠ policy.length) (attr : Mem) :
    ArrayState policy (true, s.2.1 + 1, s.2.2.set s.2.1 (some attr)) := by
  have hlt := h.lt
  refine ⟨by simp only; omega, ?_⟩
  have hdrop := congrArg (List.drop 1) h.empty
  rw [List.drop_drop, List.drop_replicate] at hdrop
  simp only
  rw [List.drop_set_of_lt (by omega), hdrop]
  congr 1

/-- A turn on an attribute that fits the current entry. -/
theorem parseArrayBody_fits {policy : List BlobmsgPolicy} {s : Bool × Nat × List (Option Mem)}
    {attr : Mem} (hstate : ArrayState policy s) (h : Held attr)
    (hfits : fitsEntry policy s.2.1 attr = true) :
    parseArrayBody policy s attr = (blobmsgCheckAttr attr false).map fun ok =>
      if ok then
        if s.2.1 + 1 = policy.length then .stop (true, s.2.1 + 1, s.2.2.set s.2.1 (some attr))
        else .next (true, s.2.1 + 1, s.2.2.set s.2.1 (some attr))
      else .stop (false, s.2) := by
  obtain ⟨id, hid⟩ := h.exists_id
  obtain ⟨entry, hentry⟩ : ∃ entry, policy[s.2.1]? = some entry :=
    ⟨_, List.getElem?_eq_getElem hstate.lt⟩
  have hfilter : ¬ (entry.type ≠ blobmsgTypeUnspec ∧ id ≠ entry.type) := by
    rintro ⟨hne, hne'⟩
    simp [fitsEntry, hentry, hid, hne, hne'] at hfits
  rw [parseArrayBody, hentry, Option.bind_some, hid, Option.bind_some, if_neg hfilter,
    hstate.slot]
  cases blobmsgCheckAttr attr false with
  | none => rfl
  | some ok => cases ok <;> rfl

theorem parseArrayBody_not_fits {policy : List BlobmsgPolicy}
    {s : Bool × Nat × List (Option Mem)} {attr : Mem} (hstate : ArrayState policy s)
    (h : Held attr) (hfits : ¬ fitsEntry policy s.2.1 attr = true) :
    parseArrayBody policy s attr = some (.next s) := by
  obtain ⟨id, hid⟩ := h.exists_id
  obtain ⟨entry, hentry⟩ : ∃ entry, policy[s.2.1]? = some entry :=
    ⟨_, List.getElem?_eq_getElem hstate.lt⟩
  have hfilter : entry.type ≠ blobmsgTypeUnspec ∧ id ≠ entry.type := by
    simpa [fitsEntry, hentry, hid] using hfits
  rw [parseArrayBody, hentry, Option.bind_some, hid, Option.bind_some, if_pos hfilter]

/-- **`blobmsg_parse_array` reads inside the buffer exactly if
`ParseArrayReads`.** -/
theorem parseArray_isSome_iff {policy : List BlobmsgPolicy} (hpolicy : policy ≠ []) {data : Mem}
    (hn : data.length < 2 ^ 32) :
    (blobmsgParseArray policy data).isSome ↔ ParseArrayReads policy data := by
  have hpos : 0 < policy.length := List.length_pos_iff.mpr hpolicy
  have hinit : ArrayState policy (true, 0, List.replicate policy.length none) :=
    ⟨hpos, rfl⟩
  rw [blobmsgParseArray, Option.isSome_map]
  refine @forEachAttr_isSome_iff _ Nat (parseArrayBody policy) _ _
    (fun i attr => if fitsEntry policy i attr then i + 1 else i) (fun s => s.2.1)
    (ArrayState policy) ?_ ?_ ?_ data.length data data.length _ (Nat.le_refl _) (Nat.le_refl _) hn
    hinit
  · intro s attr hstate hheld
    by_cases hfits : fitsEntry policy s.2.1 attr = true
    · rw [parseArrayBody_fits hstate hheld hfits, Option.isSome_map, hheld.isSome_iff false]
      exact ⟨fun h _ => h, fun h => h hfits⟩
    · rw [parseArrayBody_not_fits hstate hheld hfits]
      exact ⟨fun _ h => absurd h hfits, fun _ => rfl⟩
  · intro s s' attr hstate hheld hbody
    by_cases hfits : fitsEntry policy s.2.1 attr = true
    · rw [parseArrayBody_fits hstate hheld hfits] at hbody
      obtain ⟨ok, hok, hflow⟩ := Option.map_eq_some_iff.mp hbody
      cases ok with
      | false => cases hflow
      | true =>
          by_cases hlast : s.2.1 + 1 = policy.length
          · rw [if_pos rfl, if_pos hlast] at hflow
            cases hflow
          · rw [if_pos rfl, if_neg hlast] at hflow
            cases hflow
            refine ⟨?_, by rw [if_pos hfits], hstate.set hlast attr⟩
            rintro ⟨_, h | h⟩
            · cases hok.symm.trans h
            · exact hlast h
    · rw [parseArrayBody_not_fits hstate hheld hfits] at hbody
      cases hbody
      exact ⟨fun h => hfits h.1, by rw [if_neg hfits], hstate⟩
  · intro s s' attr hstate hheld hbody
    by_cases hfits : fitsEntry policy s.2.1 attr = true
    · rw [parseArrayBody_fits hstate hheld hfits] at hbody
      obtain ⟨ok, hok, hflow⟩ := Option.map_eq_some_iff.mp hbody
      refine ⟨hfits, ?_⟩
      cases ok with
      | false => exact Or.inl hok
      | true =>
          by_cases hlast : s.2.1 + 1 = policy.length
          · exact Or.inr hlast
          · rw [if_pos rfl, if_neg hlast] at hflow
            cases hflow
    · rw [parseArrayBody_not_fits hstate hheld hfits] at hbody
      cases hbody

/-! ## `blobmsg_parse` -/

/-- `strcmp` stops at the terminator of its second argument at the latest. -/
theorem strcmpEq_isSome (s : Mem) : ∀ {mem : Mem}, 0 ∈ mem → (strcmpEq s mem).isSome := by
  induction s with
  | nil =>
      intro mem h
      cases mem with
      | nil => cases h
      | cons c mem => rfl
  | cons a s ih =>
      intro mem h
      cases mem with
      | nil => cases h
      | cons c mem =>
          rw [strcmpEq]
          by_cases hac : a = c
          · by_cases hzero : a = 0
            · rw [if_pos hac, if_pos hzero]
              rfl
            · rw [if_pos hac, if_neg hzero]
              rcases List.mem_cons.mp h with h | h
              · exact absurd (hac.trans h.symm) hzero
              · exact ih h
          · rw [if_neg hac]
            rfl

/-- A test of `blobmsg_check_attr` that was passed. -/
theorem passed_of_ite {c : Prop} [Decidable c] {x : Option Bool}
    (h : (if c then some false else x) = some true) : ¬c ∧ x = some true := by
  by_cases hc : c
  · rw [if_pos hc] at h
    cases h
  · rw [if_neg hc] at h
    exact ⟨hc, h⟩

/-- An attribute that passes the check has a terminated name. -/
theorem mem_name_of_check {attr : Mem} {name : Bool}
    (h : blobmsgCheckAttr attr name = some true) : 0 ∈ blobmsgName attr := by
  rw [blobmsgCheckAttr] at h
  obtain ⟨len, -, h⟩ := Option.bind_eq_some_iff.mp h
  obtain ⟨-, h⟩ := passed_of_ite h
  obtain ⟨namelen, -, h⟩ := Option.bind_eq_some_iff.mp h
  obtain ⟨-, h⟩ := passed_of_ite h
  obtain ⟨-, h⟩ := passed_of_ite h
  obtain ⟨c, hc, h⟩ := Option.bind_eq_some_iff.mp h
  have hzero := (passed_of_ite h).1
  have hmem := List.mem_of_getElem? hc
  rwa [not_not.mp hzero] at hmem

variable {attr : Mem} {entry : BlobmsgPolicy} {slot : Option Mem}

/-- An entry without a name or with another type is passed over. -/
theorem parseEntry_not_typed (h : Held attr) (htyped : ¬ Typed attr entry) :
    parseEntry attr entry slot = some (some slot) := by
  obtain ⟨id, hid⟩ := h.exists_id
  rw [parseEntry]
  cases hname : entry.name with
  | none => rfl
  | some name =>
      have hfilter : entry.type ≠ blobmsgTypeUnspec ∧ id ≠ entry.type := by
        refine ⟨fun h0 => htyped ⟨by simp [hname], Or.inl h0⟩, fun heq => ?_⟩
        exact htyped ⟨by simp [hname], Or.inr (by rw [hid, heq])⟩
      simp only [hid, Option.bind_some, if_pos hfilter]

/-- So is one with a name of another length, once the length was read. -/
theorem parseEntry_typed (h : Held attr) (htyped : Typed attr entry)
    (hmatch : ¬ Matches attr entry) :
    parseEntry attr entry slot
      = (blobmsgNamelen (blobData attr)).map fun _ => some slot := by
  obtain ⟨id, hid⟩ := h.exists_id
  rw [parseEntry]
  cases hname : entry.name with
  | none => exact absurd hname htyped.1
  | some name =>
      have hfilter : ¬ (entry.type ≠ blobmsgTypeUnspec ∧ id ≠ entry.type) := by
        rintro ⟨hne, hne'⟩
        rcases htyped.2 with h0 | heq
        · exact hne h0
        · exact hne' (Option.some.inj (hid.symm.trans heq))
      simp only [hid, Option.bind_some, if_neg hfilter]
      cases hlen : blobmsgNamelen (blobData attr) with
      | none => rfl
      | some namelen =>
          have hne : namelen ≠ name.length % 2 ^ 8 := fun heq =>
            hmatch ⟨htyped, name, hname, by rw [hlen, heq]⟩
          rw [Option.bind_some, if_pos hne, Option.map_some]

/-- A matching entry depends on the check, and never faults behind it. -/
theorem parseEntry_matches (h : Held attr) (hmatch : Matches attr entry) :
    (blobmsgCheckAttr attr true = none → parseEntry attr entry slot = none) ∧
      (blobmsgCheckAttr attr true = some false → parseEntry attr entry slot = some none) ∧
      (blobmsgCheckAttr attr true = some true →
        ∃ slot', parseEntry attr entry slot = some (some slot')) := by
  obtain ⟨id, hid⟩ := h.exists_id
  obtain ⟨htyped, name, hname, hlen⟩ := hmatch
  have hfilter : ¬ (entry.type ≠ blobmsgTypeUnspec ∧ id ≠ entry.type) := by
    rintro ⟨hne, hne'⟩
    rcases htyped.2 with h0 | heq
    · exact hne h0
    · exact hne' (Option.some.inj (hid.symm.trans heq))
  have heq : parseEntry attr entry slot = (blobmsgCheckAttr attr true).bind fun ok =>
      if ok then
        if slot.isSome then some (some slot)
        else (strcmpEq name (blobmsgName attr)).map fun eq =>
          some (if eq then some attr else none)
      else some none := by
    simp only [parseEntry, hname, hid, Option.bind_some, if_neg hfilter, hlen, ne_eq,
      not_true_eq_false, if_false]
  refine ⟨fun hcheck => by rw [heq, hcheck, Option.bind_none],
    fun hcheck => by rw [heq, hcheck]; rfl, fun hcheck => ?_⟩
  rw [heq, hcheck, Option.bind_some, if_pos rfl]
  by_cases hslot : slot.isSome = true
  · exact ⟨slot, if_pos hslot⟩
  · obtain ⟨eq, hstr⟩ := Option.isSome_iff_exists.mp
      (strcmpEq_isSome name (mem_name_of_check hcheck))
    rw [if_neg hslot, hstr, Option.map_some]
    exact ⟨_, rfl⟩

/-- The name length can be read from six bytes on. -/
theorem namelen_isSome : (blobmsgNamelen (blobData attr)).isSome ↔ 6 ≤ attr.length := by
  rw [blobmsgNamelen, blobData, List.length_drop]
  split
  · exact ⟨fun _ => by omega, fun _ => rfl⟩
  · exact ⟨fun h => (by cases h), fun _ => by omega⟩

/-- What the inner loop needs, and when it returns `-1`. -/
structure EntriesSpec (attr : Mem) (entries : List (BlobmsgPolicy × Option Mem)) : Prop where
  isSome : (parseEntries attr entries).isSome ↔
    (∀ e ∈ entries, Typed attr e.1 → 6 ≤ attr.length) ∧
      ∀ e ∈ entries, Matches attr e.1 → CheckReads attr true
  length : ∀ r, parseEntries attr entries = some r → r.2.length = entries.length
  rejects : ∀ r, parseEntries attr entries = some r →
    (r.1 = false ↔ (∃ e ∈ entries, Matches attr e.1) ∧ blobmsgCheckAttr attr true = some false)

/-- An entry that is passed over, or fits an accepted attribute. -/
theorem EntriesSpec.pass {rest : List (BlobmsgPolicy × Option Mem)} {slot' : Option Mem}
    (h : Held attr) (ih : EntriesSpec attr rest)
    (hentry : parseEntry attr entry slot = some (some slot'))
    (htyped : Typed attr entry → 6 ≤ attr.length)
    (hmatch : Matches attr entry → blobmsgCheckAttr attr true = some true) :
    EntriesSpec attr ((entry, slot) :: rest) := by
  have heq : parseEntries attr ((entry, slot) :: rest)
      = (parseEntries attr rest).map fun r => (r.1, slot' :: r.2) := by
    rw [parseEntries, hentry]
    rfl
  refine ⟨?_, fun r hr => ?_, fun r hr => ?_⟩
  · rw [heq, Option.isSome_map, ih.isSome, List.forall_mem_cons, List.forall_mem_cons]
    constructor
    · rintro ⟨hlen, hreads⟩
      refine ⟨⟨htyped, hlen⟩, fun hm => ?_, hreads⟩
      exact (h.isSome_iff true).mp (by rw [hmatch hm]; rfl)
    · exact fun hall => ⟨hall.1.2, hall.2.2⟩
  · rw [heq] at hr
    obtain ⟨r', hr', rfl⟩ := Option.map_eq_some_iff.mp hr
    rw [List.length_cons, List.length_cons, ih.length r' hr']
  · rw [heq] at hr
    obtain ⟨r', hr', rfl⟩ := Option.map_eq_some_iff.mp hr
    rw [ih.rejects r' hr']
    constructor
    · rintro ⟨⟨e, he, hm⟩, hrej⟩
      exact ⟨⟨e, List.mem_cons_of_mem _ he, hm⟩, hrej⟩
    · rintro ⟨⟨e, he, hm⟩, hrej⟩
      rcases List.mem_cons.mp he with rfl | he
      · cases (hmatch hm).symm.trans hrej
      · exact ⟨⟨e, he, hm⟩, hrej⟩

theorem entriesSpec (h : Held attr) (entries : List (BlobmsgPolicy × Option Mem)) :
    EntriesSpec attr entries := by
  induction entries with
  | nil =>
      refine ⟨⟨fun _ => ⟨by simp, by simp⟩, fun _ => rfl⟩, fun r hr => ?_, fun r hr => ?_⟩
      · cases hr
        rfl
      · cases hr
        simp
  | cons e rest ih =>
      obtain ⟨entry, slot⟩ := e
      by_cases htyped : Typed attr entry
      · by_cases hmatch : Matches attr entry
        · obtain ⟨hnone, hfalse, htrue⟩ := @parseEntry_matches attr entry slot h hmatch
          have hsix : 6 ≤ attr.length := by
            obtain ⟨_, _, _, hlen⟩ := hmatch
            exact namelen_isSome.mp (by rw [hlen]; rfl)
          cases hcheck : blobmsgCheckAttr attr true with
          | none =>
              have heq : parseEntries attr ((entry, slot) :: rest) = none := by
                rw [parseEntries, hnone hcheck, Option.bind_none]
              refine ⟨?_, fun r hr => ?_, fun r hr => ?_⟩
              · rw [heq]
                refine ⟨fun hs => (by cases hs), fun hall => ?_⟩
                have hreads := hall.2 _ List.mem_cons_self hmatch
                have hsome := (h.isSome_iff true).mpr hreads
                rw [hcheck] at hsome
                cases hsome
              · rw [heq] at hr
                cases hr
              · rw [heq] at hr
                cases hr
          | some ok =>
              cases ok with
              | true =>
                  obtain ⟨slot', hentry⟩ := htrue hcheck
                  exact EntriesSpec.pass h ih hentry (fun _ => hsix) (fun _ => hcheck)
              | false =>
                  have heq : parseEntries attr ((entry, slot) :: rest)
                      = some (false, slot :: rest.map Prod.snd) := by
                    rw [parseEntries, hfalse hcheck]
                    rfl
                  have hreads : CheckReads attr true :=
                    (h.isSome_iff true).mp (by rw [hcheck]; rfl)
                  refine ⟨?_, fun r hr => ?_, fun r hr => ?_⟩
                  · rw [heq]
                    exact ⟨fun _ => ⟨fun _ _ _ => hsix, fun _ _ _ => hreads⟩, fun _ => rfl⟩
                  · rw [heq] at hr
                    cases hr
                    simp
                  · rw [heq] at hr
                    cases hr
                    exact ⟨fun _ => ⟨⟨_, List.mem_cons_self, hmatch⟩, hcheck⟩, fun _ => rfl⟩
        · have hentry := @parseEntry_typed attr entry slot h htyped hmatch
          cases hlen : blobmsgNamelen (blobData attr) with
          | none =>
              have heq : parseEntries attr ((entry, slot) :: rest) = none := by
                rw [parseEntries, hentry, hlen, Option.map_none, Option.bind_none]
              refine ⟨?_, fun r hr => ?_, fun r hr => ?_⟩
              · rw [heq]
                refine ⟨fun hs => (by cases hs), fun hall => ?_⟩
                have hsome := namelen_isSome.mpr (hall.1 _ List.mem_cons_self htyped)
                rw [hlen] at hsome
                cases hsome
              · rw [heq] at hr
                cases hr
              · rw [heq] at hr
                cases hr
          | some namelen =>
              rw [hlen, Option.map_some] at hentry
              refine EntriesSpec.pass h ih hentry (fun _ => ?_) (fun hm => absurd hm hmatch)
              exact namelen_isSome.mp (by rw [hlen]; rfl)
      · exact EntriesSpec.pass h ih (parseEntry_not_typed h htyped)
          (fun ht => absurd ht htyped) (fun hm => absurd hm.1 htyped)

/-- The inner loop goes through all entries of the policy. -/
theorem forall_mem_zip {policy : List BlobmsgPolicy} {tb : List (Option Mem)}
    (hlen : tb.length = policy.length) {P : BlobmsgPolicy → Prop} :
    (∀ e ∈ policy.zip tb, P e.1) ↔ ∀ entry ∈ policy, P entry := by
  have hmap : (policy.zip tb).map Prod.fst = policy := List.map_fst_zip (by omega)
  constructor
  · intro h entry hmem
    rw [← hmap] at hmem
    obtain ⟨e, he, rfl⟩ := List.mem_map.mp hmem
    exact h e he
  · intro h e he
    refine h _ ?_
    rw [← hmap]
    exact List.mem_map_of_mem he

theorem exists_mem_zip {policy : List BlobmsgPolicy} {tb : List (Option Mem)}
    (hlen : tb.length = policy.length) {P : BlobmsgPolicy → Prop} :
    (∃ e ∈ policy.zip tb, P e.1) ↔ ∃ entry ∈ policy, P entry := by
  have h := @forall_mem_zip policy tb hlen fun entry => ¬ P entry
  constructor
  · rintro ⟨e, he, hP⟩
    by_contra hnone
    exact h.mpr (fun entry hmem hP' => hnone ⟨entry, hmem, hP'⟩) e he hP
  · rintro ⟨entry, hmem, hP⟩
    by_contra hnone
    exact h.mp (fun e he hP' => hnone ⟨e, he, hP'⟩) entry hmem hP

/-- **`blobmsg_parse` reads inside the buffer exactly if `ParseReads`.** -/
theorem parse_isSome_iff {policy : List BlobmsgPolicy} {data : Mem}
    (hn : data.length < 2 ^ 32) :
    (blobmsgParse policy data).isSome ↔ ParseReads policy data := by
  refine @forEachAttr_isSome_iff _ Unit (parseBody policy) _ _ (fun _ _ => ()) (fun _ => ())
    (fun s => s.2.length = policy.length) ?_ ?_ ?_ data.length data data.length _ (Nat.le_refl _)
    (Nat.le_refl _) hn List.length_replicate
  · intro s attr hlen hheld
    rw [parseBody, Option.isSome_map, (entriesSpec hheld _).isSome]
    exact and_congr
      (@forall_mem_zip policy s.2 hlen fun entry => Typed attr entry → 6 ≤ attr.length)
      (@forall_mem_zip policy s.2 hlen fun entry => Matches attr entry → CheckReads attr true)
  · intro s s' attr hlen hheld hbody
    obtain ⟨r, hr, hflow⟩ := Option.map_eq_some_iff.mp hbody
    have hspec := entriesSpec hheld (policy.zip s.2)
    by_cases hok : r.1 = true
    · rw [if_pos hok] at hflow
      cases hflow
      refine ⟨fun hleaves => ?_, rfl, ?_⟩
      · rw [← exists_mem_zip hlen] at hleaves
        rw [(hspec.rejects _ hr).mpr hleaves] at hok
        cases hok
      · rw [hspec.length _ hr, List.length_zip]
        omega
    · rw [if_neg hok] at hflow
      cases hflow
  · intro s s' attr hlen hheld hbody
    obtain ⟨r, hr, hflow⟩ := Option.map_eq_some_iff.mp hbody
    have hspec := entriesSpec hheld (policy.zip s.2)
    by_cases hok : r.1 = true
    · rw [if_pos hok] at hflow
      cases hflow
    · rw [← exists_mem_zip hlen]
      exact (hspec.rejects r hr).mp (by simpa using hok)

/-! ## The result -/

/-- **When the message decoders are safe on untrusted bytes.** -/
theorem decoders_safe_iff (policy : List BlobmsgPolicy) (hpolicy : policy ≠ []) (buf : Mem)
    (hn : buf.length < 2 ^ 32) :
    ((blobmsgParse policy buf).isSome ↔ ParseReads policy buf) ∧
      ((blobmsgParseArray policy buf).isSome ↔ ParseArrayReads policy buf) ∧
      ∀ attr, attr <:+ buf → ∀ pad, blobPadLen attr = some pad → pad ≤ attr.length →
        (∀ type, (blobmsgCheckArray attr type).isSome ↔ ArrayReads attr type) ∧
        ∀ name, ((blobmsgCheckAttr attr name).isSome ∧
            (blobmsgCheckAttr attr name = some true → SoundAttr attr)) ↔ CheckRight attr name := by
  refine ⟨parse_isSome_iff hn, parseArray_isSome_iff hpolicy hn, ?_⟩
  intro attr hsuffix pad hpad hin
  have hlen : attr.length < 2 ^ 32 := Nat.lt_of_le_of_lt hsuffix.length_le hn
  exact ⟨fun type => checkArray_isSome_iff ⟨hlen, pad, hpad, hin⟩ type,
    fun name => check_sound_iff hpad hin hlen⟩

/-- One policy entry and a buffer with one well-formed attribute. -/
theorem decoders_safe_iff_message :
    ((blobmsgParse [⟨some [97], 7⟩] [135, 0, 0, 9, 0, 1, 97, 0, 1, 0, 0, 0]).isSome ↔
        ParseReads [⟨some [97], 7⟩] [135, 0, 0, 9, 0, 1, 97, 0, 1, 0, 0, 0]) ∧
      ((blobmsgParseArray [⟨some [97], 7⟩] [135, 0, 0, 9, 0, 1, 97, 0, 1, 0, 0, 0]).isSome ↔
        ParseArrayReads [⟨some [97], 7⟩] [135, 0, 0, 9, 0, 1, 97, 0, 1, 0, 0, 0]) ∧
      ∀ attr, attr <:+ [135, 0, 0, 9, 0, 1, 97, 0, 1, 0, 0, 0] → ∀ pad, blobPadLen attr = some pad →
        pad ≤ attr.length →
        (∀ type, (blobmsgCheckArray attr type).isSome ↔ ArrayReads attr type) ∧
        ∀ name, ((blobmsgCheckAttr attr name).isSome ∧
            (blobmsgCheckAttr attr name = some true → SoundAttr attr)) ↔ CheckRight attr name :=
  decoders_safe_iff [⟨some [97], 7⟩] (by simp) [135, 0, 0, 9, 0, 1, 97, 0, 1, 0, 0, 0] (by decide)

/-- An attribute of raw length 8 with a name length of two: the terminator is
looked for behind the buffer. -/
theorem not_check_terminator :
    blobPadLen [130, 0, 0, 8, 0, 2, 97, 98] = some 8 ∧
      blobmsgCheckAttr [130, 0, 0, 8, 0, 2, 97, 98] false = none := by
  refine ⟨by decide, by decide⟩

end Libubox.Blobmsg
