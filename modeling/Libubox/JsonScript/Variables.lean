import Libubox.Blobmsg.Lookup
import Libubox.JsonScript.Script

/-!
# Variables

What `json_script_find_var` finds in a well-formed set of variables: the first
string of the name, and the value `handle_var` gives if there is none
(`jsonScriptFindVar_eq`).
-/

namespace Libubox.JsonScript

open Bytes Blob Blobmsg Effect

/-! ## Values -/

/-- The text at the start of memory that holds a zero. -/
def text (mem : Mem) : Mem := mem.takeWhile (· ≠ 0)

theorem cString_of_mem {mem rest : Mem} (h : 0 ∈ mem) : cString (mem ++ rest) = some (text mem) := by
  induction mem with
  | nil => cases h
  | cons c mem ih =>
      by_cases hc : c = 0
      · simp [cString_cons, text, hc]
      · have hmem : 0 ∈ mem := (List.mem_cons.mp h).resolve_left (Ne.symm hc)
        rw [List.cons_append, cString_cons, if_neg hc, ih hmem]
        simp [text, hc]

theorem cString_append_zero (value : Mem) : cString (value ++ [0]) = some (text value) := by
  induction value with
  | nil => rfl
  | cons c value ih =>
      by_cases hc : c = 0
      · simp [cString_cons, text, hc]
      · rw [List.cons_append, cString_cons, if_neg hc, ih]
        simp [text, hc]

/-- The data of an element, if it is a string of this name. -/
def Element.stringOf (name : Mem) : Element → Option Mem
  | .data type n data => if type = blobmsgTypeString ∧ n = name then some data else none
  | .nest _ _ _ => none

/-- The text of the first string of the name. -/
def lookup (es : List Element) (name : Mem) : Option Mem :=
  (es.findSome? (Element.stringOf name)).map text

/-- The variables of a run: none, or an attribute whose data holds the elements. -/
def HoldsVars (es : List Element) : Option Mem → Prop
  | none => es = []
  | some attr => ∃ bs rest, Holds es bs ∧ blobmsgForEachStart attr = some (bs.length, bs ++ rest)

/-- A message buffer is such an attribute. -/
theorem holdsVars_plain {es : List Element} {id : Nat} {bs rest : Mem} (h : Holds es bs)
    (hid : id < 2 ^ 7) (hsmall : 4 + bs.length < 2 ^ 24) :
    HoldsVars es (some (header false id (4 + bs.length) ++ (bs ++ rest))) := by
  have hoffset : blobmsgDataOffset (header false id (4 + bs.length) ++ (bs ++ rest)) = some 0 := by
    rw [blobmsgDataOffset, blobIsExtended_header hid hsmall]
    rfl
  have hlen : blobmsgDataLen (header false id (4 + bs.length) ++ (bs ++ rest))
      = some (bs.length : Int) := by
    rw [blobmsgDataLen, blobLen_header hid hsmall (by omega), Option.bind_some, hoffset,
      Option.map_some, Nat.add_sub_cancel_left]
    have hzero : (bs.length : Int) - ((0 : Nat) : Int) = bs.length := by omega
    rw [hzero, intBmod_natCast (by omega)]
  refine ⟨bs, rest, h, ?_⟩
  rw [blobmsgForEachStart, hlen, Option.bind_some, blobmsgData, hoffset, Option.map_some,
    Option.map_some, blobData_header]
  rfl

/-- So is a table. -/
theorem holdsVars_table {es : List Element} {array : Bool} {name pad bs rest : Mem}
    (h : Holds es bs) (wf : WellFormed (containerType array) name pad bs.length) :
    HoldsVars es (some (frame (containerType array) name pad bs.length ++ (bs ++ rest))) :=
  ⟨bs, rest, h, wf.blobmsgForEachStart_eq⟩

/-! ## The search -/

/-- One turn of the search. -/
theorem findVarBody_eq {e : Element} {front name : Mem} (h : Holds [e] front) (hname : 0 ∉ name)
    (rest : Mem) :
    (Element.stringOf name e = none ∧ findVarBody name none (front ++ rest) = some (.next none)) ∨
      ∃ data more, Element.stringOf name e = some data ∧ 0 ∈ data ∧
        findVarBody name none (front ++ rest) = some (.stop (some (data ++ more))) := by
  obtain ⟨-, hreads⟩ := h.alone
  obtain ⟨hid, -, ⟨more, hmore⟩, hnul, -⟩ := (hreads rest).2
  have hcmp : strcmpEq name (blobmsgName (front ++ rest)) = some (decide (name = e.name)) := by
    rw [hmore, strcmpEq_cString hname hnul]
  rw [findVarBody, hid, Option.bind_some]
  cases h with
  | @data type n namePad data pad tail _ wf fits hpad htail =>
      by_cases htype : type = blobmsgTypeString
      · subst htype
        rw [Element.type, if_neg (by simp), hcmp, Option.bind_some, Element.name]
        by_cases hn : name = n
        · right
          have hdata : blobmsgData (frame blobmsgTypeString n namePad data.length ++ (data ++ pad)
              ++ tail ++ rest) = some (data ++ (pad ++ tail ++ rest)) := by
            simp only [List.append_assoc, wf.blobmsgData_eq]
          rw [if_pos (by simp [hn]), hdata]
          refine ⟨data, pad ++ tail ++ rest, by simp [Element.stringOf, hn], ?_, ?_⟩
          · obtain hunspec | ⟨-, hlast⟩ | hint | hint | hint | hint := fits
            · exact absurd hunspec (by decide)
            · exact List.mem_of_getElem? hlast
            all_goals exact absurd hint.1 (by decide)
          · rfl
        · left
          simp [Element.stringOf, hn, Ne.symm hn]
      · left
        simp [Element.stringOf, Element.type, htype]
  | @nest array n namePad body tail children _ wf inner htail =>
      left
      cases array <;>
        simp [Element.stringOf, Element.type, containerType, blobmsgTypeArray, blobmsgTypeTable,
          blobmsgTypeString]

/-- The loop comes to the first string of the name. -/
theorem findVar_loop {es : List Element} {bs name : Mem} (h : Holds es bs) (hname : 0 ∉ name) :
    ∀ (fuel : Nat) (rest : Mem), bs.length ≤ fuel →
      ∃ found, forEachAttr (findVarBody name) fuel (bs ++ rest) bs.length none = some found ∧
        (lookup es name = none ∧ found = none ∨
          ∃ value, found = some value ∧ cString value = lookup es name ∧
            lookup es name ≠ none) := by
  induction es generalizing bs with
  | nil =>
      intro fuel rest _
      cases h
      refine ⟨none, ?_, .inl ⟨rfl, rfl⟩⟩
      cases fuel <;> simp [forEachAttr]
  | cons e es ih =>
      intro fuel rest hfuel
      obtain ⟨front, tail, rfl, hfront, htail⟩ := h.cut
      obtain ⟨hpos, hreads⟩ := hfront.alone
      obtain ⟨hpad, -⟩ := hreads (tail ++ rest)
      rw [List.length_append] at hfuel
      obtain ⟨fuel, rfl⟩ : ∃ k, fuel = k + 1 := ⟨fuel - 1, by omega⟩
      obtain ⟨hnone, hbody⟩ | ⟨data, more, hsome, hzero, hbody⟩ :=
        findVarBody_eq hfront hname (tail ++ rest)
      · obtain ⟨found, hloop, hfound⟩ := ih htail fuel rest (by omega)
        refine ⟨found, ?_, ?_⟩
        · rw [forEachAttr_cons hpad hpos hbody, hloop]
        · rw [lookup, List.findSome?_cons, hnone]
          exact hfound
      · refine ⟨some (data ++ more), ?_, .inr ⟨_, rfl, ?_, ?_⟩⟩
        · rw [forEachAttr, if_neg (by rw [List.length_append]; omega), List.append_assoc, hpad,
            Option.bind_some, if_pos ⟨by rw [List.length_append]; omega, hpos⟩, hbody,
            Option.bind_some, Flow.andThen]
        · rw [lookup, List.findSome?_cons, hsome, cString_of_mem hzero]
          rfl
        · rw [lookup, List.findSome?_cons, hsome]
          simp

/-- The search in well-formed variables. -/
theorem findVar_eq {es : List Element} {vars : Option Mem} {name : Mem} (h : HoldsVars es vars)
    (hname : 0 ∉ name) :
    (lookup es name = none ∧ findVar vars name = some none) ∨
      ∃ value, findVar vars name = some (some value) ∧ cString value = lookup es name ∧
        lookup es name ≠ none := by
  cases vars with
  | none =>
      left
      have hes : es = [] := h
      rw [hes]
      exact ⟨rfl, rfl⟩
  | some attr =>
      obtain ⟨bs, rest, hbs, hstart⟩ := h
      obtain ⟨found, hloop, hfound⟩ := findVar_loop hbs hname bs.length rest (Nat.le_refl _)
      have heq : findVar (some attr) name = some found := by
        rw [findVar, blobmsgForEachAttr, hstart, Option.bind_some]
        exact hloop
      obtain ⟨hnone, rfl⟩ | ⟨value, rfl, hvalue, hne⟩ := hfound
      · exact .inl ⟨hnone, heq⟩
      · exact .inr ⟨value, heq, hvalue, hne⟩

variable {σ : Type}

/-- The value of a variable and what asking for it does. -/
def valueOf (c : Call σ) (es : List Element) (expanding : Bool) (name : Mem) (s : Ctx σ) :
    Option Mem × Ctx σ :=
  match lookup es name with
  | some value => (some value, s)
  | none =>
      let (value, user, aborts) := c.handlers.handleVar name c.vars s.user
      (value.map text,
        { s with user, abort := s.abort || aborts }.emit (.var name expanding aborts))

/-- `json_script_find_var` returns a pointer to the value of the variable. -/
theorem jsonScriptFindVar_eq {c : Call σ} {es : List Element} {expanding : Bool} {name : Mem}
    (h : HoldsVars es c.vars) (hname : 0 ∉ name) (s : Ctx σ) :
    ∃ found, jsonScriptFindVar c expanding name s
        = (some found, (valueOf c es expanding name s).2) ∧
      found.map cString = (valueOf c es expanding name s).1.map some := by
  obtain ⟨hnone, hfind⟩ | ⟨value, hfind, hvalue, hne⟩ := findVar_eq h hname
  · rcases hcall : c.handlers.handleVar name c.vars s.user with ⟨value, user, aborts⟩
    refine ⟨value.map (· ++ [0]), ?_, ?_⟩
    · rw [jsonScriptFindVar, hfind, need_some_bind, valueOf, hnone]
      simp [handleVar, hcall]
    · rw [valueOf, hnone]
      cases value with
      | none => simp [hcall]
      | some value => simp [hcall, cString_append_zero]
  · obtain ⟨found, hfound⟩ := Option.ne_none_iff_exists'.mp hne
    refine ⟨some value, ?_, ?_⟩
    · rw [jsonScriptFindVar, hfind, need_some_bind, valueOf, hfound]
      rfl
    · rw [valueOf, hfound, Option.map_some, hvalue, hfound]
      rfl

end Libubox.JsonScript
