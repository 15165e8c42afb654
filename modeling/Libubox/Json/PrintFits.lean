import Libubox.Json.PrintText
import Mathlib.Algebra.Order.BigOperators.Group.List

/-!
# The printer and its memory

The text of a tree, and the lengths that the printer computes for it.  Printing stays
in the memory that it allocates exactly if these lengths fit an `int`
(`print_fits_iff`): such a call comes to its text or, for want of memory, to a null
pointer.
-/

namespace Libubox.Json.Printer

/-! ## The tree -/

/-- The text of an item, given the names and texts of its children. -/
def itemText (env : Libc) (fmt : Bool) (depth : Nat) (item : Item)
    (children : List (Text × Text)) : Text :=
  match cached fmt item with
  | some t => t
  | none =>
      match item.type with
      | .null => [110, 117, 108, 108]
      | .false => [102, 97, 108, 115, 101]
      | .true => [116, 114, 117, 101]
      | .number => (printNumber env item).2
      | .string => stringText item.valuestring
      | .array => arrayText fmt (children.map Prod.snd)
      | .object => objectText fmt (depth + 1) children

/-- The names and texts of a chain. -/
def chainTexts (env : Libc) (fmt : Bool) : Nat → Json → List (Text × Text)
  | _, nil => []
  | depth, node item child next =>
      (stringText item.string,
          itemText env fmt depth item (chainTexts env fmt (depth + 1) child))
        :: chainTexts env fmt depth next

/-- The length that the call for an item computes fits an `int`. -/
def LengthFits (fmt : Bool) (depth : Nat) (item : Item) (children : List (Text × Text)) : Prop :=
  match item.type with
  | .string => (stringText item.valuestring).length + 1 < 2 ^ 31
  | .array => arrayLength fmt (children.map Prod.snd) < 2 ^ 31
  | .object => objectLength fmt (depth + 1) children < 2 ^ 31
  | _ => True

/-- The calls for the children are made. -/
def Nested (item : Item) : Prop := item.type = .array ∨ item.type = .object

/-- All lengths that are computed for a chain fit. -/
def LengthsFit (env : Libc) (fmt : Bool) : Nat → Json → Prop
  | _, nil => True
  | depth, node item child next =>
      (cached fmt item = none →
        LengthFits fmt depth item (chainTexts env fmt (depth + 1) child) ∧
          (Nested item → LengthsFit env fmt (depth + 1) child)) ∧
      LengthsFit env fmt depth next

/-- What the call for an item that brings no text along comes to. -/
def freshResult (env : Libc) (grants : Nat → Bool) (fmt : Bool) (depth : Nat) (item : Item)
    (calls : List (Printed × Item × Json)) : Printed :=
  match item.type with
  | .null => strdupText grants [110, 117, 108, 108]
  | .false => strdupText grants [102, 97, 108, 115, 101]
  | .true => strdupText grants [116, 114, 117, 101]
  | .number => if grants (printNumber env item).1 then .text (printNumber env item).2 else .null
  | .string => printStringPtr grants item.valuestring
  | .array => printArray grants fmt (calls.map Prod.fst)
  | .object =>
      printObject grants fmt (depth + 1)
        (calls.map fun c => (printStringPtr grants c.2.1.string, c.1))

section Items

variable {env : Libc} {grants : Nat → Bool} {fmt : Bool} {depth : Nat} {item : Item} {child : Json}
  {calls : List (Printed × Item × Json)}

theorem printItem_fst : (printItem env grants fmt depth item child calls).1
    = match cached fmt item with
      | some t => .text t
      | none => freshResult env grants fmt depth item calls := by
  rw [printItem]
  cases cached fmt item with
  | some t => rfl
  | none =>
      rw [freshResult]
      cases item.type <;> rfl

theorem printItem_string :
    (printItem env grants fmt depth item child calls).2.1.string = item.string := by
  rw [printItem]
  cases cached fmt item with
  | some t => rfl
  | none => cases item.type <;> rfl

end Items

/-- The call for an item came to its text, or there was no memory. -/
def Agrees (c : Printed × Item × Json) (p : Text × Text) : Prop :=
  (c.1 = .null ∨ c.1 = .text p.2) ∧ stringText c.2.1.string = p.1

theorem collectEntries_agrees {calls : List (Printed × Item × Json)} {texts : List (Text × Text)}
    (h : List.Forall₂ Agrees calls texts) :
    collectEntries (calls.map Prod.fst) = .ok (texts.map Prod.snd) ∨
      collectEntries (calls.map Prod.fst) = .error .null := by
  induction h with
  | nil => exact .inl rfl
  | @cons c p calls texts hc _ ih =>
      rw [List.map_cons, List.map_cons]
      rcases hc.1 with hnull | htext
      · rw [hnull]
        exact .inr rfl
      · rw [htext, collectEntries]
        rcases ih with ih | ih
        · rw [ih]
          exact .inl rfl
        · rw [ih]
          exact .inr rfl

/-- The results that `print_object` collects. -/
def memberResults (grants : Nat → Bool) (calls : List (Printed × Item × Json)) :
    List (Printed × Printed) :=
  calls.map fun c => (printStringPtr grants c.2.1.string, c.1)

theorem collectMembers_agrees (grants : Nat → Bool) {calls : List (Printed × Item × Json)}
    {texts : List (Text × Text)} (h : List.Forall₂ Agrees calls texts)
    (hnames : ∀ p ∈ texts, p.1.length + 1 < 2 ^ 31) :
    collectMembers (memberResults grants calls) = .ok texts ∨
      collectMembers (memberResults grants calls) = .error .null := by
  induction h with
  | nil => exact .inl rfl
  | @cons c p calls texts hc _ ih =>
      have ih' := ih fun q hq => hnames q (List.mem_cons_of_mem p hq)
      obtain ⟨hresult, hname⟩ := hc
      have hfits := hnames p List.mem_cons_self
      have hstring : printStringPtr grants c.2.1.string = .null ∨
          printStringPtr grants c.2.1.string = .text p.1 := by
        rw [printStringPtr_eq, hname, if_pos hfits]
        split
        · exact .inr rfl
        · exact .inl rfl
      rw [memberResults, List.map_cons, ← memberResults]
      rcases hstring with hs | hs
      · right
        rcases hresult with hr | hr
        · rw [hs, hr, collectMembers]
          · rcases ih' with ih' | ih' <;> rw [ih']
          all_goals simp
        · rw [hs, hr, collectMembers]
          · rcases ih' with ih' | ih' <;> rw [ih']
          all_goals simp
      · rcases hresult with hr | hr
        · right
          rw [hs, hr, collectMembers]
          · rcases ih' with ih' | ih' <;> rw [ih']
          all_goals simp
        · rw [hs, hr, collectMembers]
          rcases ih' with ih' | ih'
          · rw [ih']
            exact .inl rfl
          · rw [ih']
            exact .inr rfl

section Lengths

variable (fmt : Bool) (depth : Nat) {members : List (Text × Text)}

theorem length_le_arrayLength (entries : List Text) :
    entries.length ≤ arrayLength fmt entries := by
  have h : (entries.map (entryLength fmt)).length ≤ (entries.map (entryLength fmt)).sum := by
    apply List.length_le_sum_of_one_le
    intro n hn
    obtain ⟨t, -, rfl⟩ := List.mem_map.mp hn
    rw [entryLength]
    omega
  rw [List.length_map] at h
  rw [arrayLength]
  omega

theorem length_le_objectLength (members : List (Text × Text)) :
    members.length ≤ objectLength fmt depth members := by
  have h : (members.map (memberLength fmt depth)).length
      ≤ (members.map (memberLength fmt depth)).sum := by
    apply List.length_le_sum_of_one_le
    intro n hn
    obtain ⟨p, -, rfl⟩ := List.mem_map.mp hn
    rw [memberLength]
    omega
  rw [List.length_map] at h
  rw [objectLength]
  omega

/-- A name is shorter than the object it is in. -/
theorem name_le_objectLength {p : Text × Text} (hp : p ∈ members) :
    p.1.length + 1 ≤ objectLength fmt depth members := by
  have h : memberLength fmt depth p ≤ (members.map (memberLength fmt depth)).sum :=
    List.le_sum_of_mem (List.mem_map_of_mem hp)
  rw [memberLength] at h
  rw [objectLength]
  omega

end Lengths

/-! ## Lengths that fit are enough -/

section Items

variable {env : Libc} {grants : Nat → Bool} {fmt : Bool} {depth : Nat} {item : Item} {child : Json}
  {calls : List (Printed × Item × Json)} {texts : List (Text × Text)}

theorem printArray_agrees (hcalls : List.Forall₂ Agrees calls texts)
    (hfits : arrayLength fmt (texts.map Prod.snd) < 2 ^ 31) :
    printArray grants fmt (calls.map Prod.fst) = .null ∨
      printArray grants fmt (calls.map Prod.fst) = .text (arrayText fmt (texts.map Prod.snd)) := by
  have hcount : (calls.map Prod.fst).length < 2 ^ 31 := by
    have h := length_le_arrayLength fmt (texts.map Prod.snd)
    rw [List.length_map] at h ⊢
    rw [hcalls.length_eq]
    omega
  rw [printArray, if_neg (Nat.not_le.mpr hcount)]
  split
  · rcases collectEntries_agrees hcalls with h | h
    · rw [h]
      show allocate _ _ _ = _ ∨ allocate _ _ _ = _
      rw [allocate_array, if_pos hfits]
      split
      · exact .inr rfl
      · exact .inl rfl
    · rw [h]
      exact .inl rfl
  · exact .inl rfl

theorem printObject_agrees (hcalls : List.Forall₂ Agrees calls texts)
    (hfits : objectLength fmt depth texts < 2 ^ 31) :
    printObject grants fmt depth (memberResults grants calls) = .null ∨
      printObject grants fmt depth (memberResults grants calls)
        = .text (objectText fmt depth texts) := by
  have hcount : (memberResults grants calls).length < 2 ^ 31 := by
    have h := length_le_objectLength fmt depth texts
    rw [memberResults, List.length_map, hcalls.length_eq]
    omega
  have hnames : ∀ p ∈ texts, p.1.length + 1 < 2 ^ 31 := by
    intro p hp
    have h := name_le_objectLength fmt depth hp
    omega
  rw [printObject, if_neg (Nat.not_le.mpr hcount)]
  split
  · rcases collectMembers_agrees grants hcalls hnames with h | h
    · rw [h]
      show allocate _ _ _ = _ ∨ allocate _ _ _ = _
      rw [allocate_object, if_pos hfits]
      split
      · exact .inr rfl
      · exact .inl rfl
    · rw [h]
      exact .inl rfl
  · exact .inl rfl

theorem strdupText_agrees (t : Text) :
    strdupText grants t = .null ∨ strdupText grants t = .text t := by
  rw [strdupText]
  split
  · exact .inr rfl
  · exact .inl rfl

theorem itemText_of_fresh (h : cached fmt item = none) :
    itemText env fmt depth item texts
      = match item.type with
        | .null => [110, 117, 108, 108]
        | .false => [102, 97, 108, 115, 101]
        | .true => [116, 114, 117, 101]
        | .number => (printNumber env item).2
        | .string => stringText item.valuestring
        | .array => arrayText fmt (texts.map Prod.snd)
        | .object => objectText fmt (depth + 1) texts := by
  rw [itemText, h]

theorem itemText_of_cached {t : Text} (h : cached fmt item = some t) :
    itemText env fmt depth item texts = t := by
  rw [itemText, h]

/-- Lengths that fit make a call come to its text, or to a null pointer. -/
theorem freshResult_agrees (h : cached fmt item = none) (hfits : LengthFits fmt depth item texts)
    (hcalls : Nested item → List.Forall₂ Agrees calls texts) :
    freshResult env grants fmt depth item calls = .null ∨
      freshResult env grants fmt depth item calls
        = .text (itemText env fmt depth item texts) := by
  rw [itemText_of_fresh h, freshResult]
  rw [LengthFits] at hfits
  cases htype : item.type with
  | null => exact strdupText_agrees _
  | false => exact strdupText_agrees _
  | true => exact strdupText_agrees _
  | number =>
      by_cases hgrants : grants (printNumber env item).1 = true
      · exact .inr (if_pos hgrants)
      · exact .inl (if_neg hgrants)
  | string =>
      rw [htype] at hfits
      show printStringPtr grants item.valuestring = _ ∨ printStringPtr grants item.valuestring = _
      rw [printStringPtr_eq, if_pos hfits]
      split
      · exact .inr rfl
      · exact .inl rfl
  | array =>
      rw [htype] at hfits
      exact printArray_agrees (hcalls (.inl htype)) hfits
  | object =>
      rw [htype] at hfits
      exact printObject_agrees (hcalls (.inr htype)) hfits

theorem printItem_agrees
    (hfits : cached fmt item = none → LengthFits fmt depth item texts)
    (hcalls : cached fmt item = none → Nested item → List.Forall₂ Agrees calls texts) :
    Agrees (printItem env grants fmt depth item child calls)
      (stringText item.string, itemText env fmt depth item texts) := by
  refine ⟨?_, by rw [printItem_string]⟩
  rw [printItem_fst]
  cases hcached : cached fmt item with
  | some t =>
      rw [itemText_of_cached hcached]
      exact .inr rfl
  | none => exact freshResult_agrees hcached (hfits hcached) (hcalls hcached)

end Items

/-- A chain whose lengths fit comes to its texts, as far as there is memory. -/
theorem printChain_agrees {env : Libc} {fmt : Bool} (grants : Nat → Bool) (chain : Json)
    (depth : Nat) (h : LengthsFit env fmt depth chain) :
    List.Forall₂ Agrees (printChain env grants fmt depth chain)
      (chainTexts env fmt depth chain) := by
  induction chain generalizing depth with
  | nil => exact .nil
  | node item child next ihchild ihnext =>
      obtain ⟨hitem, hnext⟩ := h
      apply List.Forall₂.cons
      · apply printItem_agrees
        · intro hcached
          exact (hitem hcached).1
        · intro hcached hnested
          exact ihchild (depth + 1) ((hitem hcached).2 hnested)
      · exact ihnext depth hnext

/-! ## Lengths that fit are needed -/

/-- Memory that never runs out. -/
def unlimited : Nat → Bool := fun _ => true

section Unlimited

variable {env : Libc} {fmt : Bool} {depth : Nat} {item : Item} {child : Json}
  {calls : List (Printed × Item × Json)} {texts : List (Text × Text)}

theorem printStringPtr_unlimited (str : Option Text) :
    printStringPtr unlimited str
      = if (stringText str).length + 1 < 2 ^ 31 then .text (stringText str) else .fault :=
  printStringPtr_eq unlimited str

/-- Without a null pointer among them, results are texts or one of them is undefined. -/
theorem collectEntries_unlimited {results : List Printed} (h : ∀ r ∈ results, r ≠ .null) :
    collectEntries results = .error .fault ∨
      (∀ r ∈ results, r ≠ .fault) ∧ ∃ entries, collectEntries results = .ok entries := by
  induction results with
  | nil => exact .inr ⟨fun r hr => absurd hr List.not_mem_nil, [], rfl⟩
  | cons r rs ih =>
      cases r with
      | null => exact absurd rfl (h .null List.mem_cons_self)
      | fault => exact .inl rfl
      | text t =>
          rw [collectEntries]
          rcases ih fun r hr => h r (List.mem_cons_of_mem _ hr) with ih | ⟨ih, entries, hentries⟩
          · rw [ih]
            exact .inl rfl
          · rw [hentries]
            refine .inr ⟨?_, t :: entries, rfl⟩
            intro r hr
            rcases List.mem_cons.mp hr with rfl | hr
            · exact Printed.noConfusion
            · exact ih r hr

theorem collectMembers_unlimited {results : List (Printed × Printed)}
    (h : ∀ r ∈ results, r.1 ≠ .null ∧ r.2 ≠ .null) :
    collectMembers results = .error .fault ∨
      (∀ r ∈ results, r.1 ≠ .fault ∧ r.2 ≠ .fault) ∧
        ∃ members, collectMembers results = .ok members := by
  induction results with
  | nil => exact .inr ⟨fun r hr => absurd hr List.not_mem_nil, [], rfl⟩
  | cons r rs ih =>
      obtain ⟨name, entry⟩ := r
      obtain ⟨hname, hentry⟩ := h _ List.mem_cons_self
      cases name with
      | null => exact absurd rfl hname
      | fault => exact .inl rfl
      | text s =>
          cases entry with
          | null => exact absurd rfl hentry
          | fault => exact .inl rfl
          | text t =>
              rw [collectMembers]
              rcases ih fun r hr => h r (List.mem_cons_of_mem _ hr) with
                ih | ⟨ih, members, hmembers⟩
              · rw [ih]
                exact .inl rfl
              · rw [hmembers]
                refine .inr ⟨?_, (s, t) :: members, rfl⟩
                intro r hr
                rcases List.mem_cons.mp hr with rfl | hr
                · exact ⟨Printed.noConfusion, Printed.noConfusion⟩
                · exact ih r hr

/-- What `print_array` comes to with memory for everything. -/
theorem printArray_unlimited (fmt : Bool) (hnull : ∀ c ∈ calls, c.1 ≠ .null) :
    printArray unlimited fmt (calls.map Prod.fst) = .fault ∨
      (∀ c ∈ calls, c.1 ≠ .fault) ∧ ∃ entries,
        collectEntries (calls.map Prod.fst) = .ok entries ∧ arrayLength fmt entries < 2 ^ 31 ∧
          printArray unlimited fmt (calls.map Prod.fst) = .text (arrayText fmt entries) := by
  rw [printArray]
  split
  · exact .inl rfl
  · rw [if_pos (by rfl)]
    have hresults : ∀ r ∈ calls.map Prod.fst, r ≠ .null := by
      intro r hr
      obtain ⟨c, hc, rfl⟩ := List.mem_map.mp hr
      exact hnull c hc
    rcases collectEntries_unlimited hresults with h | ⟨hfault, entries, h⟩
    · rw [h]
      exact .inl rfl
    · rw [h]
      show allocate _ _ _ = _ ∨ _
      rw [allocate_array]
      by_cases hfits : arrayLength fmt entries < 2 ^ 31
      · rw [if_pos hfits]
        refine .inr ⟨?_, entries, rfl, hfits, allocate_array .. |>.trans (if_pos hfits)⟩
        intro c hc
        exact hfault c.1 (List.mem_map_of_mem hc)
      · rw [if_neg hfits]
        exact .inl rfl

/-- What `print_object` comes to with memory for everything. -/
theorem printObject_unlimited (fmt : Bool) (depth : Nat) (hnull : ∀ c ∈ calls, c.1 ≠ .null) :
    printObject unlimited fmt depth (memberResults unlimited calls) = .fault ∨
      (∀ r ∈ memberResults unlimited calls, r.1 ≠ .fault ∧ r.2 ≠ .fault) ∧ ∃ members,
        collectMembers (memberResults unlimited calls) = .ok members ∧
          objectLength fmt depth members < 2 ^ 31 ∧
          printObject unlimited fmt depth (memberResults unlimited calls)
            = .text (objectText fmt depth members) := by
  rw [printObject]
  split
  · exact .inl rfl
  · rw [if_pos (by rfl)]
    have hresults : ∀ r ∈ memberResults unlimited calls, r.1 ≠ .null ∧ r.2 ≠ .null := by
      intro r hr
      obtain ⟨c, hc, rfl⟩ := List.mem_map.mp hr
      constructor
      · rw [printStringPtr_unlimited]
        split <;> exact Printed.noConfusion
      · exact hnull c hc
    rcases collectMembers_unlimited hresults with h | ⟨hfault, members, h⟩
    · rw [h]
      exact .inl rfl
    · rw [h]
      show allocate _ _ _ = _ ∨ _
      rw [allocate_object]
      by_cases hfits : objectLength fmt depth members < 2 ^ 31
      · rw [if_pos hfits]
        exact .inr ⟨hfault, members, rfl, hfits, allocate_object .. |>.trans (if_pos hfits)⟩
      · rw [if_neg hfits]
        exact .inl rfl

theorem names_fit (h : List.Forall₂ Agrees calls texts)
    (hnames : ∀ r ∈ memberResults unlimited calls, r.1 ≠ .fault ∧ r.2 ≠ .fault) :
    ∀ p ∈ texts, p.1.length + 1 < 2 ^ 31 := by
  induction h with
  | nil => exact fun p hp => absurd hp List.not_mem_nil
  | @cons c p calls texts hc _ ih =>
      intro q hq
      rcases List.mem_cons.mp hq with rfl | hq
      · by_contra hlong
        apply (hnames _ List.mem_cons_self).1
        show printStringPtr unlimited c.2.1.string = .fault
        rw [printStringPtr_unlimited, hc.2, if_neg hlong]
      · exact ih (fun r hr => hnames r (List.mem_cons_of_mem _ hr)) q hq

/-- With memory for everything no call comes to a null pointer. -/
theorem freshResult_ne_null (hnull : ∀ c ∈ calls, c.1 ≠ .null) :
    freshResult env unlimited fmt depth item calls ≠ .null := by
  rw [freshResult]
  cases item.type with
  | null => exact Printed.noConfusion
  | false => exact Printed.noConfusion
  | true => exact Printed.noConfusion
  | number => exact Printed.noConfusion
  | string =>
      show printStringPtr unlimited item.valuestring ≠ .null
      rw [printStringPtr_unlimited]
      split <;> exact Printed.noConfusion
  | array =>
      show printArray unlimited fmt (calls.map Prod.fst) ≠ .null
      rcases printArray_unlimited fmt hnull with h | ⟨-, entries, -, -, h⟩
      · rw [h]
        exact Printed.noConfusion
      · rw [h]
        exact Printed.noConfusion
  | object =>
      show printObject unlimited fmt (depth + 1) (memberResults unlimited calls) ≠ .null
      rcases printObject_unlimited fmt (depth + 1) hnull with
        h | ⟨-, members, -, -, h⟩
      · rw [h]
        exact Printed.noConfusion
      · rw [h]
        exact Printed.noConfusion

/-- A call that is defined computes lengths that fit. -/
theorem fits_of_freshResult (hnull : ∀ c ∈ calls, c.1 ≠ .null)
    (hcalls : (∀ c ∈ calls, c.1 ≠ .fault) → List.Forall₂ Agrees calls texts)
    (h : freshResult env unlimited fmt depth item calls ≠ .fault) :
    LengthFits fmt depth item texts ∧ (Nested item → ∀ c ∈ calls, c.1 ≠ .fault) := by
  have hleaf : item.type ≠ .array → item.type ≠ .object →
      Nested item → ∀ c ∈ calls, c.1 ≠ .fault := by
    intro harray hobject hnested
    exact absurd hnested (not_or.mpr ⟨harray, hobject⟩)
  rw [freshResult] at h
  rw [LengthFits]
  cases htype : item.type with
  | null => exact ⟨trivial, hleaf (by rw [htype]; decide) (by rw [htype]; decide)⟩
  | false => exact ⟨trivial, hleaf (by rw [htype]; decide) (by rw [htype]; decide)⟩
  | true => exact ⟨trivial, hleaf (by rw [htype]; decide) (by rw [htype]; decide)⟩
  | number => exact ⟨trivial, hleaf (by rw [htype]; decide) (by rw [htype]; decide)⟩
  | string =>
      refine ⟨?_, hleaf (by rw [htype]; decide) (by rw [htype]; decide)⟩
      rw [htype] at h
      by_contra hlong
      apply h
      exact (printStringPtr_unlimited _).trans (if_neg hlong)
  | array =>
      rw [htype] at h
      rcases printArray_unlimited fmt hnull with hp | ⟨hfault, entries, hentries, hfits, -⟩
      · exact absurd hp h
      · rcases collectEntries_agrees (hcalls hfault) with hok | herror
        · rw [hok] at hentries
          cases hentries
          exact ⟨hfits, fun _ => hfault⟩
        · rw [herror] at hentries
          cases hentries
  | object =>
      rw [htype] at h
      rcases printObject_unlimited fmt (depth + 1) hnull with
        hp | ⟨hfault, members, hmembers, hfits, -⟩
      · exact absurd hp h
      · have hentries : ∀ c ∈ calls, c.1 ≠ .fault :=
          fun c hc => (hfault _ (List.mem_map_of_mem hc)).2
        have hagrees := hcalls hentries
        rcases collectMembers_agrees unlimited hagrees (names_fit hagrees hfault) with hok | herror
        · rw [hok] at hmembers
          cases hmembers
          exact ⟨hfits, fun _ => hentries⟩
        · rw [herror] at hmembers
          cases hmembers

theorem printItem_ne_null (hnull : ∀ c ∈ calls, c.1 ≠ .null) :
    (printItem env unlimited fmt depth item child calls).1 ≠ .null := by
  rw [printItem_fst]
  split
  · exact Printed.noConfusion
  · exact freshResult_ne_null hnull

end Unlimited

theorem printChain_ne_null {env : Libc} {fmt : Bool} (chain : Json) (depth : Nat) :
    ∀ c ∈ printChain env unlimited fmt depth chain, c.1 ≠ .null := by
  induction chain generalizing depth with
  | nil => exact fun c hc => absurd hc List.not_mem_nil
  | node item child next ihchild ihnext =>
      intro c hc
      rw [printChain] at hc
      rcases List.mem_cons.mp hc with rfl | hc
      · exact printItem_ne_null (ihchild (depth + 1))
      · exact ihnext depth c hc

/-- A chain whose calls are defined computes lengths that fit. -/
theorem fits_of_printChain {env : Libc} {fmt : Bool} (chain : Json) (depth : Nat)
    (h : ∀ c ∈ printChain env unlimited fmt depth chain, c.1 ≠ .fault) :
    LengthsFit env fmt depth chain := by
  induction chain generalizing depth with
  | nil => trivial
  | node item child next ihchild ihnext =>
      rw [printChain] at h
      have hitem := h _ List.mem_cons_self
      refine ⟨?_, ihnext depth fun c hc => h c (List.mem_cons_of_mem _ hc)⟩
      intro hcached
      rw [printItem_fst, hcached] at hitem
      obtain ⟨hfits, hchildren⟩ := fits_of_freshResult (printChain_ne_null child (depth + 1))
        (fun hc => printChain_agrees unlimited child (depth + 1) (ihchild (depth + 1) hc)) hitem
      exact ⟨hfits, fun hnested => ihchild (depth + 1) (hchildren hnested)⟩

/-! ## The tree as a whole -/

/-- All lengths that are computed for an item and below it fit. -/
def Fits (env : Libc) (fmt : Bool) : Json → Prop
  | nil => True
  | node item child _ => LengthsFit env fmt 0 (node item child nil)

/-- The text of an item. -/
def valueText (env : Libc) (fmt : Bool) : Json → Text
  | nil => []
  | node item child _ => itemText env fmt 0 item (chainTexts env fmt 1 child)

/-- Lengths that fit make a value come to its text, as far as there is memory. -/
theorem printValue_eq {env : Libc} {fmt : Bool} {item : Json} (h : Fits env fmt item)
    (grants : Nat → Bool) :
    (printValue env grants fmt item).1 = .null ∨
      (printValue env grants fmt item).1 = .text (valueText env fmt item) := by
  cases item with
  | nil => exact .inl rfl
  | node item child next =>
      have hagrees := printChain_agrees grants (node item child nil) 0 h
      cases hagrees with
      | cons hroot _ => exact hroot.1

/-- With memory for everything printing does not come to a null pointer. -/
theorem printValue_ne_null {env : Libc} {fmt : Bool} {value : Json} (h : value ≠ nil) :
    (printValue env unlimited fmt value).1 ≠ .null := by
  cases value with
  | nil => exact absurd rfl h
  | node item child next => exact printItem_ne_null (printChain_ne_null child 1)

/-- Printing that is defined computes lengths that fit. -/
theorem fits_of_printValue {env : Libc} {fmt : Bool} {item : Json}
    (h : (printValue env unlimited fmt item).1 ≠ .fault) : Fits env fmt item := by
  cases item with
  | nil => trivial
  | node item child next =>
      apply fits_of_printChain
      intro c hc
      cases hc with
      | head => exact h
      | tail _ hc => exact absurd hc List.not_mem_nil

/-- Printing stays in its memory exactly if the lengths that it computes fit. -/
theorem print_fits_iff (env : Libc) (fmt : Bool) (item : Json) :
    (∀ grants, (printValue env grants fmt item).1 ≠ .fault) ↔ Fits env fmt item := by
  constructor
  · intro h
    exact fits_of_printValue (h unlimited)
  · intro h grants
    rcases printValue_eq h grants with hnull | htext
    · rw [hnull]
      exact Printed.noConfusion
    · rw [htext]
      exact Printed.noConfusion

theorem stringText_replicate (n : Nat) :
    (stringText (some (List.replicate n 1))).length = 6 * n + 2 := by
  have hlength : ((List.replicate n (1 : UInt8)).flatMap escapeChar).length = 6 * n := by
    induction n with
    | zero => rfl
    | succ n ih =>
        rw [List.replicate_succ, List.flatMap_cons, List.length_append, ih, escapeChar_length]
        show 6 + 6 * n = 6 * (n + 1)
        omega
  have htake : (List.replicate n (1 : UInt8)).takeWhile (· ≠ 0) = List.replicate n 1 := by
    rw [List.takeWhile_replicate]
    rfl
  have hquoted := printStringPtr_length (List.replicate n 1)
  rw [stringText, Option.map_some, htake]
  omega

theorem printValue_createString (env : Libc) (grants : Nat → Bool) (fmt : Bool) (s : Text) :
    (printValue env grants fmt (createString s)).1 = printStringPtr grants (some s) := by
  show (printItem env grants fmt 0 _ nil []).1 = _
  rw [printItem_fst, cached]
  cases fmt <;> rfl

/-- The length of this string wraps to 5. -/
theorem print_overflows :
    ¬∀ (env : Libc) (fmt : Bool) (item : Json) (grants : Nat → Bool),
      (printValue env grants fmt item).1 ≠ .fault := by
  intro h
  apply h default false (createString (List.replicate 715827883 1)) unlimited
  rw [printValue_createString, printStringPtr_unlimited, stringText_replicate, if_neg (by decide)]

end Libubox.Json.Printer
