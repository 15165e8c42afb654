import Libubox.Blobmsg.Build

/-!
# Messages as trees

What a message stands for: a list of named elements, each with data of its
own or a table or array of further elements.  `Holds es bs` says that the
bytes `bs` encode `es`; padding after names and data may hold anything.
`readMsg` is the recursive walk with `blobmsg_for_each_attr`, and
`readMsg_holds` says that it finds exactly `es`.
-/

namespace Libubox.Blobmsg

open Bytes Blob

/-- A named attribute with everything below it. -/
inductive Element where
  | data (type : Nat) (name data : Mem)
  | nest (array : Bool) (name : Mem) (children : List Element)

/-- The type of a table or an array. -/
def containerType (array : Bool) : Nat := if array then blobmsgTypeArray else blobmsgTypeTable

mutual
/-- The number of bytes an element takes. -/
def Element.size : Element → Nat
  | .data _ name data => 4 + blobmsgHdrlen name.length + alignUp 4 data.length
  | .nest _ name children => 4 + blobmsgHdrlen name.length + sizes children

def sizes : List Element → Nat
  | [] => 0
  | e :: es => e.size + sizes es
end

/-- The bytes of consecutive elements. -/
inductive Holds : List Element → Mem → Prop
  | nil : Holds [] []
  | data {type : Nat} {name namePad data pad rest : Mem} {es : List Element}
      (wf : WellFormed type name namePad data.length) (fits : DataFits type data)
      (hpad : pad.length = alignUp 4 data.length - data.length) (tail : Holds es rest) :
      Holds (.data type name data :: es)
        (frame type name namePad data.length ++ (data ++ pad) ++ rest)
  | nest {array : Bool} {name namePad body rest : Mem} {children es : List Element}
      (wf : WellFormed (containerType array) name namePad body.length)
      (inner : Holds children body) (tail : Holds es rest) :
      Holds (.nest array name children :: es)
        (frame (containerType array) name namePad body.length ++ body ++ rest)

theorem isContainer_containerType (array : Bool) : IsContainer (containerType array) := by
  cases array
  · exact Or.inr rfl
  · exact Or.inl rfl

theorem containerType_eq_array (array : Bool) :
    decide (containerType array = blobmsgTypeArray) = array := by
  cases array <;> rfl

namespace Holds

/-- The number of bytes is fixed by the elements. -/
theorem length_eq {es : List Element} {bs : Mem} (h : Holds es bs) : bs.length = sizes es := by
  induction h with
  | nil => rfl
  | @data _ _ _ data _ _ _ wf fits hpad tail ih =>
      have hle := le_alignUp_four data.length
      simp only [List.length_append, frame_length wf.name_fits, hpad, ih, sizes, Element.size]
      omega
  | nest wf inner tail ihInner ih =>
      simp only [List.length_append, frame_length wf.name_fits, ihInner, ih, sizes, Element.size]

theorem length_mod {es : List Element} {bs : Mem} (h : Holds es bs) : bs.length % 4 = 0 := by
  induction h with
  | nil => rfl
  | @data _ name _ data _ _ _ wf fits hpad tail ih =>
      have hle := le_alignUp_four data.length
      have hmod := alignUp_four_mod data.length
      have hhdr := blobmsgHdrlen_mod name.length
      simp only [List.length_append, frame_length wf.name_fits, hpad]
      omega
  | @nest _ name _ _ _ _ _ wf inner tail ihInner ih =>
      have hhdr := blobmsgHdrlen_mod name.length
      simp only [List.length_append, frame_length wf.name_fits]
      omega

theorem append {es fs : List Element} {bs cs : Mem} (h : Holds es bs) (h' : Holds fs cs) :
    Holds (es ++ fs) (bs ++ cs) := by
  induction h with
  | nil => exact h'
  | data wf fits hpad tail ih =>
      rw [List.cons_append, List.append_assoc]
      exact Holds.data wf fits hpad ih
  | nest wf inner tail ihInner ih =>
      rw [List.cons_append, List.append_assoc]
      exact Holds.nest wf inner ih

end Holds

/-! ## Reading -/

/-- The loop body of the walk: read one attribute, with `below` for the walk
of a table or an array.  The state is the elements so far and the attributes
visited so far. -/
def readBody (below : Mem → Option (List Element × List Mem))
    (s : List Element × List Mem) (cur : Mem) : Option (Flow (List Element × List Mem)) :=
  (blobId cur).bind fun type =>
    (cString (blobmsgName cur)).bind fun name =>
      if IsContainer type then
        (below cur).map fun inner =>
          .next (s.1 ++ [.nest (decide (type = blobmsgTypeArray)) name inner.1],
            s.2 ++ cur :: inner.2)
      else
        (blobmsgDataBytes cur).map fun data => .next (s.1 ++ [.data type name data], s.2 ++ [cur])

/-- Walk an attribute with `blobmsg_for_each_attr`, and every table and array
in it: the elements, and all attributes visited.  The first argument bounds
the depth. -/
def readMsg : Nat → Mem → Option (List Element × List Mem)
  | 0, _ => none
  | depth + 1, attr => blobmsgForEachAttr (readBody (readMsg depth)) attr ([], [])

/-- Both variants of the check pass, the one for names if there is a name. -/
def Checked (attr : Mem) : Prop :=
  blobmsgCheckAttr attr false = some true ∧
    ∀ name, cString (blobmsgName attr) = some name → name ≠ [] →
      blobmsgCheckAttr attr true = some true

/-- The attribute that holds `e`, in a well-formed message. -/
def AttrOf (e : Element) (attr : Mem) : Prop :=
  ∃ es bs rest, Holds (e :: es) bs ∧ bs.length < 2 ^ 24 ∧ attr = bs ++ rest

theorem blobmsgDataBytes_frame {type : Nat} {name namePad data rest : Mem}
    (wf : WellFormed type name namePad data.length) :
    blobmsgDataBytes (frame type name namePad data.length ++ (data ++ rest)) = some data := by
  have hlen : toUnsigned (data.length : Int) = data.length :=
    toUnsigned_natCast (by have := wf.small; omega)
  rw [blobmsgDataBytes, wf.blobmsgData_eq, Option.bind_some, wf.blobmsgDataLen_eq,
    Option.bind_some, hlen, if_pos (by rw [List.length_append]; omega), List.take_left]

/-- One turn of the loop. -/
theorem forEachAttr_cons {σ : Type} {body : σ → Mem → Option (Flow σ)} {fuel : Nat}
    {bs tail rest : Mem} {s s' : σ} (hpad : blobPadLen (bs ++ (tail ++ rest)) = some bs.length)
    (hpos : 4 ≤ bs.length) (hbody : body s (bs ++ (tail ++ rest)) = some (.next s')) :
    forEachAttr body (fuel + 1) (bs ++ tail ++ rest) (bs ++ tail).length s
      = forEachAttr body fuel (tail ++ rest) tail.length s' := by
  have hsub : (bs ++ tail).length - bs.length = tail.length := by
    rw [List.length_append, Nat.add_sub_cancel_left]
  rw [forEachAttr, if_neg (by rw [List.length_append]; omega), List.append_assoc, hpad,
    Option.bind_some, if_pos ⟨by rw [List.length_append]; omega, hpos⟩, hbody, Option.bind_some,
    Flow.andThen, List.drop_left, hsub]

/-- Well-formed attributes pass the checks. -/
theorem AttrOf.checked {e : Element} {attr : Mem} (h : AttrOf e attr) : Checked attr := by
  obtain ⟨es, bs, rest, hholds, -, rfl⟩ := h
  cases hholds with
  | @data type name namePad data pad tail _ wf fits hpad htail =>
      have hbytes : frame type name namePad data.length ++ (data ++ pad) ++ tail ++ rest
          = frame type name namePad data.length ++ (data ++ (pad ++ tail ++ rest)) := by
        simp only [List.append_assoc]
      rw [hbytes]
      refine ⟨wf.blobmsgCheckAttr_data (by simp) fits, fun n hn hne => ?_⟩
      obtain rfl := Option.some.inj (wf.cString_name.symm.trans hn)
      exact wf.blobmsgCheckAttr_data (fun _ => hne) fits
  | @nest array name namePad body tail _ _ wf inner htail =>
      rw [List.append_assoc, List.append_assoc]
      refine ⟨wf.blobmsgCheckAttr_container (by simp) (isContainer_containerType array),
        fun n hn hne => ?_⟩
      obtain rfl := Option.some.inj (wf.cString_name.symm.trans hn)
      exact wf.blobmsgCheckAttr_container (fun _ => hne) (isContainer_containerType array)

/-- **The walk finds the elements.**  The induction is on the bytes; the depth
goes down with the nesting. -/
theorem forEachAttr_holds {es : List Element} {bs : Mem} (h : Holds es bs) :
    ∀ (depth fuel : Nat) (rest : Mem) (s : List Element × List Mem),
      bs.length < 2 ^ 24 → bs.length ≤ depth → bs.length ≤ fuel →
      ∃ below, forEachAttr (readBody (readMsg depth)) fuel (bs ++ rest) bs.length s
          = some (s.1 ++ es, s.2 ++ below) ∧
        ∀ a ∈ below, Checked a ∧ ∃ e, AttrOf e a := by
  induction h with
  | nil =>
      intro depth fuel rest s _ _ _
      refine ⟨[], ?_, fun a ha => by cases ha⟩
      cases fuel <;> simp [forEachAttr]
  | @data type name namePad data pad tail es wf fits hpad htail ih =>
      intro depth fuel rest s hsmall hdepth hfuel
      have hattr : AttrOf (.data type name data)
          (frame type name namePad data.length ++ (data ++ pad) ++ (tail ++ rest)) :=
        ⟨es, _, rest, Holds.data wf fits hpad htail, hsmall, by rw [List.append_assoc _ tail]⟩
      have hcur := hattr.checked
      have hlen : (frame type name namePad data.length ++ (data ++ pad)).length
          = 4 + blobmsgHdrlen name.length + alignUp 4 data.length := by
        have hle := le_alignUp_four data.length
        rw [List.length_append, frame_length wf.name_fits, List.length_append]
        omega
      have hbody : readBody (readMsg depth) s
          (frame type name namePad data.length ++ (data ++ pad) ++ (tail ++ rest))
          = some (.next (s.1 ++ [.data type name data], s.2 ++ [frame type name namePad data.length
            ++ (data ++ pad) ++ (tail ++ rest)])) := by
        rw [readBody, List.append_assoc, wf.blobId_eq, Option.bind_some, wf.cString_name,
          Option.bind_some, if_neg fits.not_container, List.append_assoc,
          blobmsgDataBytes_frame wf, Option.map_some]
      have hpadlen : blobPadLen
          (frame type name namePad data.length ++ (data ++ pad) ++ (tail ++ rest))
          = some (frame type name namePad data.length ++ (data ++ pad)).length := by
        rw [hlen, List.append_assoc, wf.blobPadLen_eq]
      generalize frame type name namePad data.length ++ (data ++ pad) = bs at *
      rw [List.length_append] at hsmall hdepth hfuel
      obtain ⟨fuel, rfl⟩ : ∃ k, fuel = k + 1 := ⟨fuel - 1, by omega⟩
      obtain ⟨below, hrest, hbelow⟩ := ih depth fuel rest
        (s.1 ++ [.data type name data], s.2 ++ [bs ++ (tail ++ rest)])
        (by omega) (by omega) (by omega)
      refine ⟨(bs ++ (tail ++ rest)) :: below, ?_, ?_⟩
      · rw [forEachAttr_cons hpadlen (by omega) hbody, hrest]
        simp only [List.append_assoc, List.singleton_append]
      · intro a ha
        rcases List.mem_cons.mp ha with rfl | ha
        · exact ⟨hcur, _, hattr⟩
        · exact hbelow a ha
  | @nest array name namePad body tail children es wf inner htail ihInner ih =>
      intro depth fuel rest s hsmall hdepth hfuel
      have hattr : AttrOf (.nest array name children)
          (frame (containerType array) name namePad body.length ++ body ++ (tail ++ rest)) :=
        ⟨es, _, rest, Holds.nest wf inner htail, hsmall, by rw [List.append_assoc _ tail]⟩
      have hcur := hattr.checked
      have hlen : (frame (containerType array) name namePad body.length ++ body).length
          = 4 + blobmsgHdrlen name.length + body.length := by
        rw [List.length_append, frame_length wf.name_fits]
      rw [List.length_append, hlen] at hsmall hdepth hfuel
      obtain ⟨fuel, rfl⟩ : ∃ k, fuel = k + 1 := ⟨fuel - 1, by omega⟩
      obtain ⟨depth, rfl⟩ : ∃ k, depth = k + 1 := ⟨depth - 1, by omega⟩
      -- the walk of the container itself
      obtain ⟨inside, hinner, hinside⟩ := ihInner depth body.length (tail ++ rest) ([], [])
        (by omega) (by omega) (Nat.le_refl _)
      have hbelow : readMsg (depth + 1)
          (frame (containerType array) name namePad body.length ++ (body ++ (tail ++ rest)))
          = some (children, inside) := by
        rw [readMsg, blobmsgForEachAttr, wf.blobmsgForEachStart_eq, Option.bind_some]
        exact hinner
      have hbody : readBody (readMsg (depth + 1)) s
          (frame (containerType array) name namePad body.length ++ body ++ (tail ++ rest))
          = some (.next (s.1 ++ [.nest array name children],
              s.2 ++ (frame (containerType array) name namePad body.length ++ body
                ++ (tail ++ rest)) :: inside)) := by
        rw [readBody, List.append_assoc, wf.blobId_eq, Option.bind_some, wf.cString_name,
          Option.bind_some, if_pos (isContainer_containerType array), hbelow, Option.map_some,
          containerType_eq_array]
      have hpadlen : blobPadLen
          (frame (containerType array) name namePad body.length ++ body ++ (tail ++ rest))
          = some (frame (containerType array) name namePad body.length ++ body).length := by
        rw [hlen, List.append_assoc, wf.blobPadLen_eq, alignUp_four_of_mod inner.length_mod]
      generalize frame (containerType array) name namePad body.length ++ body = bs at *
      obtain ⟨below, hrest, hmem⟩ := ih (depth + 1) fuel rest
        (s.1 ++ [.nest array name children], s.2 ++ (bs ++ (tail ++ rest)) :: inside)
        (by omega) (by omega) (by omega)
      refine ⟨(bs ++ (tail ++ rest)) :: (inside ++ below), ?_, ?_⟩
      · rw [forEachAttr_cons hpadlen (by omega) hbody, hrest]
        simp only [List.append_assoc, List.cons_append, List.nil_append]
      · intro a ha
        rcases List.mem_cons.mp ha with rfl | ha
        · exact ⟨hcur, _, hattr⟩
        · rcases List.mem_append.mp ha with ha | ha
          · exact hinside a ha
          · exact hmem a ha

/-- The bytes determine the elements. -/
theorem Holds.unique {es fs : List Element} {bs : Mem} (h : Holds es bs) (h' : Holds fs bs)
    (hsmall : bs.length < 2 ^ 24) : es = fs := by
  obtain ⟨below, hread, -⟩ := forEachAttr_holds h bs.length bs.length [] ([], []) hsmall
    (Nat.le_refl _) (Nat.le_refl _)
  obtain ⟨below', hread', -⟩ := forEachAttr_holds h' bs.length bs.length [] ([], []) hsmall
    (Nat.le_refl _) (Nat.le_refl _)
  rw [hread, Option.some.injEq, Prod.mk.injEq] at hread'
  exact hread'.1

/-- The same for a whole message: a plain container around the elements. -/
theorem readMsg_holds {id depth : Nat} {es : List Element} {bs rest : Mem} (h : Holds es bs)
    (hid : id < 2 ^ 7) (hsmall : 4 + bs.length < 2 ^ 24) (hdepth : bs.length < depth) :
    ∃ seen, readMsg depth (header false id (4 + bs.length) ++ (bs ++ rest)) = some (es, seen) ∧
      ∀ a ∈ seen, Checked a ∧ ∃ e, AttrOf e a := by
  obtain ⟨depth, rfl⟩ : ∃ k, depth = k + 1 := ⟨depth - 1, by omega⟩
  obtain ⟨seen, hloop, hseen⟩ := forEachAttr_holds h depth bs.length rest ([], []) (by omega)
    (by omega) (Nat.le_refl _)
  have hoffset : blobmsgDataOffset (header false id (4 + bs.length) ++ (bs ++ rest)) = some 0 := by
    rw [blobmsgDataOffset, blobIsExtended_header hid hsmall]
    rfl
  have hlen : blobmsgDataLen (header false id (4 + bs.length) ++ (bs ++ rest))
      = some (bs.length : Int) := by
    rw [blobmsgDataLen, blobLen_header hid hsmall (by omega), Option.bind_some, hoffset,
      Option.map_some, Nat.add_sub_cancel_left]
    have hzero : (bs.length : Int) - ((0 : Nat) : Int) = bs.length := by omega
    rw [hzero, intBmod_natCast (by omega)]
  refine ⟨seen, ?_, hseen⟩
  rw [readMsg, blobmsgForEachAttr, blobmsgForEachStart, hlen, Option.bind_some, blobmsgData,
    hoffset, Option.map_some, Option.map_some, blobData_header]
  exact hloop

end Libubox.Blobmsg
