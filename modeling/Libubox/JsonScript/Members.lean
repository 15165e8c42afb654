import Mathlib.Data.List.TakeWhile
import Libubox.JsonScript.Calls
import Libubox.JsonScript.Variables

/-!
# The elements of an array

What the interpreter finds in a well-formed array, whatever follows it: a loop
goes over its elements (`forEachIn_nest`), a tuple takes for each of its types
the next element of that type (`parseTuple_nest`).
-/

namespace Libubox.JsonScript

open Bytes Blob Blobmsg Effect

variable {σ α : Type}

/-- The loop over a list of attributes. -/
def loopOver (body : Nat → Mem → Script σ (Option α)) : Nat → List Mem → Script σ (Option α)
  | _, [] => pure none
  | i, m :: ms => body i m >>= carryOn (loopOver body (i + 1) ms)

/-- The elements of a tuple: for each type the next one of it. -/
def pick : List Nat → List (Element × Mem) → List (Option Mem)
  | [], _ => []
  | types, [] => types.map fun _ => none
  | type :: types, (e, m) :: ps =>
      if type = blobmsgTypeUnspec ∨ e.type = type then some m :: pick types ps
      else pick (type :: types) ps

/-! ## One element -/

/-- The bytes of the element itself. -/
theorem ownBytes_holds {e : Element} {front : Mem} (h : Holds [e] front) (rest : Mem) :
    ownBytes (front ++ rest) = some front := by
  rw [ownBytes, (h.alone.2 rest).1, Option.map_some, List.take_left]

/-- A string ends inside its element. -/
theorem stringAt_holds {e : Element} {front : Mem} (h : Holds [e] front)
    (he : e.type = blobmsgTypeString) :
    ∃ str, 0 ∉ str ∧ ∀ rest, stringAt (front ++ rest) = some str := by
  cases h with
  | @data type n namePad data pad tail _ wf fits hpad htail =>
      obtain rfl : type = blobmsgTypeString := he
      have hzero : 0 ∈ data := by
        obtain hunspec | ⟨-, hlast⟩ | hint | hint | hint | hint := fits
        · exact absurd hunspec (by decide)
        · exact List.mem_of_getElem? hlast
        all_goals exact absurd hint.1 (by decide)
      refine ⟨text data, ?_, fun rest => ?_⟩
      · intro hmem
        have := List.mem_takeWhile_imp hmem
        simp at this
      · simp only [List.append_assoc]
        rw [stringAt, wf.blobmsgData_eq, Option.bind_some, cString_of_mem hzero]
  | @nest array n namePad body tail children _ wf inner htail =>
      have htype : containerType array = blobmsgTypeString := he
      cases array <;> exact absurd htype (by decide)

/-! ## All elements -/

theorem places_cons {e : Element} {es : List Element} {front tail : Mem} (h : Holds [e] front) :
    places (e :: es) (front ++ tail) = (e, front ++ tail) :: places es tail := by
  have hsize : front.length = e.size := by
    rw [h.length_eq, sizes, sizes, Nat.add_zero]
  rw [places, ← hsize, List.drop_left]

theorem mem_of_mem_places {es : List Element} {m : Mem} {p : Element × Mem} (h : p ∈ places es m) :
    p.1 ∈ es := by
  rw [← places_fst es m]
  exact List.mem_map_of_mem h

theorem places_append {es fs : List Element} {front : Mem} (h : Holds es front) (tail : Mem) :
    places (es ++ fs) (front ++ tail) = places es (front ++ tail) ++ places fs tail := by
  induction es generalizing front with
  | nil =>
      cases h
      rfl
  | cons e es ih =>
      obtain ⟨first, rest, rfl, hfirst, hrest⟩ := h.cut
      rw [List.cons_append, List.append_assoc, places_cons hfirst, places_cons hfirst,
        List.cons_append, ih hrest]

theorem carryOn_assoc (m : Script σ (Option α)) (k l : Script σ (Option α)) :
    m >>= carryOn k >>= carryOn l = m >>= carryOn (k >>= carryOn l) := by
  rw [bind_assoc]
  congr 1
  funext left
  cases left with
  | none => rfl
  | some a => rfl

theorem bind_carryOn_done (m : Script σ (Option α)) : m >>= carryOn (pure none) = m := by
  have hdone : carryOn (pure none : Script σ (Option α)) = pure := by
    funext left
    cases left with
    | none => rfl
    | some a => rfl
  rw [hdone, bind_pure]

theorem loopOver_append (body : Nat → Mem → Script σ (Option α)) (ms ns : List Mem) (i : Nat) :
    loopOver body i (ms ++ ns) = loopOver body i ms >>= carryOn (loopOver body (i + ms.length) ns) := by
  induction ms generalizing i with
  | nil => rfl
  | cons m ms ih =>
      rw [List.cons_append, loopOver, loopOver, ih, carryOn_assoc, List.length_cons,
        Nat.add_right_comm, Nat.add_assoc]

theorem forEach_holds (body : Nat → Mem → Script σ (Option α)) {es : List Element} {bs : Mem}
    (h : Holds es bs) (fuel i : Nat) (rest : Mem) (hfuel : bs.length ≤ fuel) :
    forEach body fuel i (bs ++ rest) bs.length =
      loopOver body i ((places es (bs ++ rest)).map Prod.snd) := by
  induction es generalizing bs fuel i with
  | nil =>
      cases h
      cases fuel <;> rfl
  | cons e es ih =>
      obtain ⟨front, tail, rfl, hfront, htail⟩ := h.cut
      obtain ⟨hpos, hreads⟩ := hfront.alone
      rw [List.length_append] at hfuel ⊢
      obtain ⟨fuel, rfl⟩ : ∃ k, fuel = k + 1 := ⟨fuel - 1, by omega⟩
      rw [List.append_assoc, places_cons hfront, List.map_cons, loopOver,
        forEach_turn (by omega) (hreads (tail ++ rest)).1 ⟨by omega, hpos⟩, List.drop_left,
        Nat.add_sub_cancel_left, ih htail fuel (i + 1) (by omega)]

/-- The loop over a table or an array. -/
theorem forEachIn_nest (body : Nat → Mem → Script σ (Option α)) {type : Nat} {name pad inner : Mem}
    {children : List Element} (wf : WellFormed type name pad inner.length)
    (h : Holds children inner) (rest : Mem) :
    forEachIn body (frame type name pad inner.length ++ (inner ++ rest)) =
      loopOver body 0 ((places children (inner ++ rest)).map Prod.snd) := by
  rw [forEachIn, wf.blobmsgForEachStart_eq, need_some_bind]
  exact forEach_holds body h inner.length 0 rest (Nat.le_refl _)

/-! ## Tuples -/

theorem pick_nil (types : List Nat) : pick types [] = types.map fun _ => none := by
  cases types <;> rfl

/-- Elements of other types are passed over. -/
theorem pick_skip {type : Nat} {types : List Nat} {ps : List (Element × Mem)}
    (h : ∀ p ∈ ps, ¬(type = blobmsgTypeUnspec ∨ p.1.type = type)) (qs : List (Element × Mem)) :
    pick (type :: types) (ps ++ qs) = pick (type :: types) qs := by
  induction ps with
  | nil => rfl
  | cons p ps ih =>
      obtain ⟨e, m⟩ := p
      rw [List.cons_append, pick, if_neg (h (e, m) List.mem_cons_self)]
      exact ih fun p hp => h p (List.mem_cons_of_mem _ hp)

/-- The state of the loop of `blobmsg_parse_array` with the first types found. -/
def foundSoFar (types : List Nat) (found : List (Option Mem)) : Bool × Nat × List (Option Mem) :=
  (true, found.length, found ++ List.replicate (types.length - found.length) none)

def typesPolicy (types : List Nat) : List BlobmsgPolicy := types.map fun type => ⟨none, type⟩

theorem parseArrayBody_pick {types : List Nat} {found : List (Option Mem)}
    (hi : found.length < types.length) {e : Element} {front : Mem} (h : Holds [e] front)
    (rest : Mem) :
    parseArrayBody (typesPolicy types) (foundSoFar types found) (front ++ rest) =
      if types[found.length] ≠ blobmsgTypeUnspec ∧ e.type ≠ types[found.length] then
        some (.next (foundSoFar types found))
      else if found.length + 1 = types.length then
        some (.stop (foundSoFar types (found ++ [some (front ++ rest)])))
      else some (.next (foundSoFar types (found ++ [some (front ++ rest)]))) := by
  have hpolicy : (typesPolicy types)[found.length]? = some ⟨none, types[found.length]⟩ := by
    rw [typesPolicy, List.getElem?_map, List.getElem?_eq_getElem hi, Option.map_some]
  obtain ⟨k, hk⟩ : ∃ k, types.length - found.length = k + 1 := ⟨_, (Nat.succ_pred (by omega)).symm⟩
  have hslot : (found ++ List.replicate (types.length - found.length) none)[found.length]? =
      some (none : Option Mem) := by
    rw [List.getElem?_append_right (Nat.le_refl _), Nat.sub_self, hk, List.replicate_succ]
    rfl
  have hset : (found ++ List.replicate (types.length - found.length) none).set found.length
      (some (front ++ rest)) = (found ++ [some (front ++ rest)]) ++
        List.replicate (types.length - (found.length + 1)) none := by
    rw [List.set_append_right _ _ (Nat.le_refl _), Nat.sub_self, hk, List.replicate_succ,
      List.set_cons_zero, ← Nat.sub_sub, hk, Nat.add_sub_cancel, List.append_assoc,
      List.singleton_append]
  simp only [parseArrayBody, foundSoFar]
  rw [hpolicy, Option.bind_some, h.blobId_eq, Option.bind_some]
  split
  · rfl
  · rw [h.check, Option.bind_some, if_pos rfl, hslot, Option.map_some, hset]
    have hlength : (typesPolicy types).length = types.length := List.length_map _
    have hsnoc : (found ++ [some (front ++ rest)]).length = found.length + 1 := by simp
    rw [hlength, hsnoc]
    by_cases hlast : found.length + 1 = types.length
    · simp [hlast]
    · simp [hlast]

/-- The loop of `blobmsg_parse_array` with the first types found. -/
theorem forEachAttr_pick {types : List Nat} {es : List Element} {bs : Mem} (h : Holds es bs)
    (fuel : Nat) (rest : Mem) (hfuel : bs.length ≤ fuel) (found : List (Option Mem))
    (hi : found.length < types.length) :
    (forEachAttr (parseArrayBody (typesPolicy types)) fuel (bs ++ rest) bs.length
        (foundSoFar types found)).map (fun s => s.2.2) =
      some (found ++ pick (types.drop found.length) (places es (bs ++ rest))) := by
  induction es generalizing bs fuel found with
  | nil =>
      cases h
      have hnone : pick (types.drop found.length) (places [] ([] ++ rest)) =
          List.replicate (types.length - found.length) none := by
        rw [places, pick_nil, List.map_const', List.length_drop]
      rw [hnone]
      cases fuel <;> rfl
  | cons e es ih =>
      obtain ⟨front, tail, rfl, hfront, htail⟩ := h.cut
      obtain ⟨hpos, hreads⟩ := hfront.alone
      obtain ⟨hpad, -⟩ := hreads (tail ++ rest)
      have hone := parseArrayBody_pick hi hfront (tail ++ rest)
      rw [List.length_append] at hfuel
      obtain ⟨fuel, rfl⟩ : ∃ k, fuel = k + 1 := ⟨fuel - 1, by omega⟩
      rw [List.append_assoc, places_cons hfront, List.drop_eq_getElem_cons hi, pick]
      by_cases htype : types[found.length] = blobmsgTypeUnspec ∨ e.type = types[found.length]
      · rw [if_pos htype]
        rw [if_neg (by tauto)] at hone
        by_cases hlast : found.length + 1 = types.length
        · rw [if_pos hlast] at hone
          have hdrop : types.drop (found.length + 1) = [] := by rw [hlast, List.drop_length]
          rw [forEachAttr, if_neg (by rw [List.length_append]; omega), hpad, Option.bind_some,
            if_pos ⟨by rw [List.length_append]; omega, hpos⟩, hone, Option.bind_some, Flow.andThen,
            hdrop]
          simp [foundSoFar, hlast, pick]
        · rw [if_neg hlast] at hone
          have hsnoc : (found ++ [some (front ++ (tail ++ rest))]).length = found.length + 1 := by
            simp
          have hrest := ih htail fuel (by omega) (found ++ [some (front ++ (tail ++ rest))])
            (by omega)
          rw [← forEachAttr_cons hpad hpos hone, List.append_assoc, hsnoc] at hrest
          rw [hrest]
          simp
      · rw [if_neg htype]
        rw [if_pos (by tauto)] at hone
        have hrest := ih htail fuel (by omega) found hi
        rw [← forEachAttr_cons hpad hpos hone, List.drop_eq_getElem_cons hi, List.append_assoc] at hrest
        exact hrest

/-- The tuple at the start of a table or an array. -/
theorem parseTuple_nest {types : List Nat} (htypes : types ≠ []) {type : Nat}
    {name pad inner : Mem} {children : List Element}
    (wf : WellFormed type name pad inner.length) (h : Holds children inner) (rest : Mem) :
    parseTuple types (frame type name pad inner.length ++ (inner ++ rest)) =
      some (pick types (places children (inner ++ rest))) := by
  have hsmall := wf.small
  have hlen : toUnsigned (inner.length : Int) = inner.length := toUnsigned_natCast (by omega)
  have hloop := forEachAttr_pick h inner.length rest (Nat.le_refl _) []
    (List.length_pos_iff.mpr htypes)
  rw [List.nil_append, List.length_nil, List.drop_zero] at hloop
  rw [parseTuple, wf.blobmsgData_eq, Option.bind_some, wf.blobmsgDataLen_eq, Option.bind_some, hlen,
    blobmsgParseArrayAt, ← hloop]
  simp [foundSoFar, typesPolicy]

/-! ## Arrays -/

/-- An array with the bytes `inner` of its elements. -/
def IsArray (inner b : Mem) : Prop :=
  ∃ name pad, WellFormed blobmsgTypeArray name pad inner.length ∧
    b = frame blobmsgTypeArray name pad inner.length ++ inner

theorem exists_isArray {name b : Mem} {children : List Element}
    (h : Holds [.nest true name children] b) :
    ∃ inner, IsArray inner b ∧ Holds children inner := by
  obtain ⟨pad, inner, wf, hinner, hb⟩ := h.nest_eq
  exact ⟨inner, ⟨name, pad, wf, hb⟩, hinner⟩

namespace IsArray

variable {inner b : Mem} {children : List Element} (hb : IsArray inner b)

include hb

theorem holds (h : Holds children inner) : ∃ name, Holds [.nest true name children] b := by
  obtain ⟨name, pad, wf, rfl⟩ := hb
  have hone : Holds [.nest true name children]
      (frame blobmsgTypeArray name pad inner.length ++ inner ++ []) :=
    @Holds.nest true name pad inner [] children [] wf h .nil
  rw [List.append_nil] at hone
  exact ⟨name, hone⟩

theorem blobId_eq (t : Mem) : blobId (b ++ t) = some blobmsgTypeArray := by
  obtain ⟨name, pad, wf, rfl⟩ := hb
  rw [List.append_assoc, wf.blobId_eq]

theorem blobmsgData_eq (t : Mem) : blobmsgData (b ++ t) = some (inner ++ t) := by
  obtain ⟨name, pad, wf, rfl⟩ := hb
  rw [List.append_assoc, wf.blobmsgData_eq]

theorem ownBytes_eq (h : Holds children inner) (t : Mem) : ownBytes (b ++ t) = some b := by
  obtain ⟨name, hone⟩ := hb.holds h
  exact ownBytes_holds hone t

theorem length_lt : inner.length < b.length := by
  obtain ⟨name, pad, wf, rfl⟩ := hb
  rw [List.length_append, frame_length wf.name_fits]
  omega

theorem small : inner.length < 2 ^ 24 := by
  obtain ⟨name, pad, wf, rfl⟩ := hb
  have := wf.small
  omega

/-- The elements of a well-formed array. -/
theorem elements {e : Element} (h : Holds [e] b) :
    ∃ name children, e = .nest true name children ∧ Holds children inner := by
  have htype := h.blobId_eq []
  rw [hb.blobId_eq, Option.some.injEq] at htype
  obtain ⟨name, children, rfl⟩ : ∃ name children, e = .nest true name children :=
    h.nest_of_type htype.symm
  obtain ⟨inner', hb', hinner⟩ := exists_isArray h
  have hsame : inner = inner' := by
    obtain ⟨name, pad, wf, rfl⟩ := hb
    obtain ⟨name', pad', wf', heq⟩ := hb'
    have hdata : blobmsgData (frame blobmsgTypeArray name pad inner.length ++ inner) = some inner :=
      wf.blobmsgData_eq
    rw [heq, wf'.blobmsgData_eq, Option.some.injEq] at hdata
    exact hdata.symm
  exact ⟨name, children, rfl, hsame ▸ hinner⟩

theorem forEachIn_eq (body : Nat → Mem → Script σ (Option α)) (h : Holds children inner) (t : Mem) :
    forEachIn body (b ++ t) = loopOver body 0 ((places children (inner ++ t)).map Prod.snd) := by
  obtain ⟨name, pad, wf, rfl⟩ := hb
  rw [List.append_assoc, forEachIn_nest body wf h]

theorem parseTuple_eq {types : List Nat} (htypes : types ≠ []) (h : Holds children inner)
    (t : Mem) : parseTuple types (b ++ t) = some (pick types (places children (inner ++ t))) := by
  obtain ⟨name, pad, wf, rfl⟩ := hb
  rw [List.append_assoc, parseTuple_nest htypes wf h]

end IsArray

/-! ## Arrays without names -/

/-- A string, as the encoder writes it. -/
def stringBytes (str : Mem) : Mem := fieldBytes blobmsgTypeString [] (str ++ [0])

/-- An array of elements with these bytes. -/
def arrayBytes (inner : Mem) : Mem := frame blobmsgTypeArray [] (namePad []) inner.length ++ inner

theorem holds_stringBytes {str : Mem} (h : str.length < 2 ^ 16) :
    Holds [.data blobmsgTypeString [] (str ++ [0])] (stringBytes str) := by
  have hname : NameOk [] := ⟨by decide, by decide⟩
  refine holds_fieldBytes (by decide) hname (.inr (.inl ⟨rfl, by simp⟩)) ?_
  rw [fieldBytes_length hname, List.length_append, List.length_singleton]
  have := alignUp_four_lt (str.length + 1)
  have hhdrlen : blobmsgHdrlen ([] : Mem).length = 4 := rfl
  omega

theorem wellFormed_arrayBytes {inner : Mem} (h : inner.length < 2 ^ 16) :
    WellFormed blobmsgTypeArray [] (namePad []) inner.length := by
  have hname : NameOk [] := ⟨by decide, by decide⟩
  refine ⟨by decide, hname.fits, ?_⟩
  have hhdrlen : blobmsgHdrlen ([] : Mem).length = 4 := rfl
  omega

theorem isArray_arrayBytes {inner : Mem} (h : inner.length < 2 ^ 16) :
    IsArray inner (arrayBytes inner) :=
  ⟨[], namePad [], wellFormed_arrayBytes h, rfl⟩

theorem holds_arrayBytes {inner : Mem} {children : List Element} (hinner : Holds children inner)
    (h : inner.length < 2 ^ 16) : Holds [.nest true [] children] (arrayBytes inner) := by
  have hone : Holds [.nest true [] children] (arrayBytes inner ++ []) :=
    @Holds.nest true [] (namePad []) inner [] children [] (wellFormed_arrayBytes h) hinner .nil
  rw [List.append_nil] at hone
  exact hone

end Libubox.JsonScript
