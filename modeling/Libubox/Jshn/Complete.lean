import Libubox.Json.Accepts
import Libubox.Jshn.Parse

/-!
# What is missing in the shell text

`jshn_parse` returns 0 for every JSON object, and its text has a `json_add_*`
command for every member and element exactly when there is no null in the
document: a null ends the chain that it stands in (`jshnParse_complete_iff`).
-/

namespace Libubox

namespace Json

/-! ## Documents without null -/

mutual

/-- There is no null in a document. -/
def Tree.NoNull : Tree → Prop
  | .null => False
  | .bool _ | .number _ | .string _ => True
  | .array vs => elementsNoNull vs
  | .object ms => membersNoNull ms

def elementsNoNull : List Tree → Prop
  | [] => True
  | v :: vs => v.NoNull ∧ elementsNoNull vs

def membersNoNull : List (List CharUnit × Tree) → Prop
  | [] => True
  | (_, v) :: ms => v.NoNull ∧ membersNoNull ms

end

def Part.NoNull : Part → Prop
  | .value v => v.NoNull
  | .elements vs => elementsNoNull vs
  | .members ms => membersNoNull ms

end Json

namespace Jshn

open Json

/-! ## Completeness -/

/-- The key word of a member, or of the element with an index. -/
def keyWord (index : Option Nat) (item : Item) : Shell.Word :=
  (index.map Decimal.natText).getD (writeKeyString (cString (item.string.getD [])))

/-- The keys of all members and elements of a chain, in pre-order: the members of an
object, or with `some i` the elements of an array from index `i` on. -/
def keys : Option Nat → Json → List Shell.Word
  | _, .nil => []
  | index, .node item child next =>
      keyWord index item
        :: (match item.type with
          | .object => keys none child
          | .array => keys (some 0) child
          | _ => [])
        ++ keys (index.map (· + 1)) next

/-- The command is a `json_add_*` with the key. -/
def Adds (key : Shell.Word) (cmd : Shell.Command) : Prop :=
  ∃ type args, type ∈ typeNames ∧ cmd = (jsonAdd ++ type) :: key :: args

/-- The shell reads a `json_add_*` command for each of the keys in the text, one
behind the other. -/
def Complete (ks : List Shell.Word) (text : Text) : Prop :=
  ∃ cmds, Shell.commands text = some cmds ∧ ∃ sub, sub.Sublist cmds ∧ List.Forall₂ Adds ks sub

/-- `jshn_parse` of the object with the members `child` returns 0 only if its
text is complete. -/
def CompleteOrFails (env : Libc) (str : Text) (child : Json) : Prop :=
  ∀ text, jshnParse env str = some (text, 0) → Complete (keys none child) text

/-! ## What is printed -/

/-- An item with its strings cut at their terminators. -/
def cutItem (item : Item) : Item :=
  { item with
    string := item.string.map cString
    valuestring := item.valuestring.map cString }

/-- A chain up to its first null, with strings up to their terminators. -/
def printed : Json → Json
  | .nil => .nil
  | .node item child next =>
      if item.type = .null then .nil
      else .node (cutItem item) (printed child) (printed next)

/-- What `add_json_object` and `add_json_array` return for a chain. -/
def chainCode : Json → Int
  | .nil => 0
  | .node item _ next => if item.type = .null then -1 else chainCode next

theorem zero_notMem_cString (str : Text) : 0 ∉ cString str := by
  intro h
  simpa using List.mem_takeWhile_imp h

theorem cString_cString (str : Text) : cString (cString str) = cString str :=
  cString_of_notMem (zero_notMem_cString str)

theorem typeName_eq_none {item : Item} : typeName item = none ↔ item.type = .null := by
  unfold typeName
  split <;> grind

/-- The element of a null prints nothing. -/
theorem addJsonElement_null {env : Libc} {key : Option Text} {item : Item}
    {members elements : Option Printed} (h : item.type = .null) :
    addJsonElement env key item members elements = some ([], -1) := by
  rw [addJsonElement, typeName_eq_none.mpr h]

/-- What is printed for an element does not depend on the return values below it,
nor on what lies behind the terminators of strings. -/
theorem addJsonElement_cut (env : Libc) (key : Option Text) (item : Item)
    (members elements : Option Printed) (c d : Int) :
    addJsonElement env key item (members.map fun p => (p.1, c)) (elements.map fun p => (p.1, d))
      = addJsonElement env (key.map cString) (cutItem item) members elements := by
  have htail : elementTail env item (members.map fun p => (p.1, c)) (elements.map fun p => (p.1, d))
      = elementTail env (cutItem item) members elements := by
    unfold elementTail
    cases htype : item.type with
    | object => simp [cutItem, htype, Function.comp_def]
    | array => simp [cutItem, htype, Function.comp_def]
    | string => simp [cutItem, htype, Function.comp_def, cString_cString]
    | true => simp [cutItem, htype]
    | false => simp [cutItem, htype]
    | number => simp [cutItem, htype, jsonTypeIsDouble]
    | null => simp [cutItem, htype]
  have hname : typeName (cutItem item) = typeName item := rfl
  rw [addJsonElement, addJsonElement, hname, htail]
  split
  · rfl
  · cases key with
    | none => rfl
    | some key => simp [cString_cString]

theorem elementTail_code {env : Libc} {item : Item} {members elements : Option Printed} {p : Printed}
    (htype : item.type ≠ .null) (h : elementTail env item members elements = some p) : p.2 = 0 := by
  unfold elementTail at h
  split at h
  · obtain ⟨q, -, rfl⟩ := Option.map_eq_some_iff.mp h
    rfl
  · obtain ⟨q, -, rfl⟩ := Option.map_eq_some_iff.mp h
    rfl
  · obtain ⟨q, -, rfl⟩ := Option.map_eq_some_iff.mp h
    rfl
  · cases h
    rfl
  · cases h
    rfl
  · split at h <;> cases h <;> rfl
  · next hnull => exact absurd hnull htype

/-- An element that is no null is printed without an error. -/
theorem addJsonElement_code {env : Libc} {key : Option Text} {item : Item}
    {members elements : Option Printed} {p : Printed} (htype : item.type ≠ .null)
    (h : addJsonElement env key item members elements = some p) : p.2 = 0 := by
  unfold addJsonElement at h
  split at h
  · next hnone => exact absurd (typeName_eq_none.mp hnone) htype
  · obtain ⟨k, -, h⟩ := Option.bind_eq_some_iff.mp h
    obtain ⟨q, hq, rfl⟩ := Option.map_eq_some_iff.mp h
    have hcode : q.2 = 0 := elementTail_code htype hq
    exact hcode

/-- The text of a chain is the text of what is printed of it. -/
theorem addJson_printed (env : Libc) (j : Json) :
    addJsonObject env j = (addJsonObject env (printed j)).map (fun p => (p.1, chainCode j)) ∧
    ∀ i, addJsonArray env i j = (addJsonArray env i (printed j)).map fun p => (p.1, chainCode j) := by
  induction j with
  | nil => exact ⟨rfl, fun _ => rfl⟩
  | node item child next ihchild ihnext =>
      by_cases hnull : item.type = .null
      · constructor
        · rw [addJsonObject, addJsonElement_null hnull, printed, if_pos hnull, chainCode,
            if_pos hnull]
          rfl
        · intro i
          rw [addJsonArray, addJsonElement_null hnull, printed, if_pos hnull, chainCode,
            if_pos hnull]
          rfl
      have hcut : (cutItem item).type ≠ .null := hnull
      constructor
      · rw [addJsonObject, printed, if_neg hnull, chainCode, if_neg hnull, addJsonObject, ihchild.1,
          ihchild.2 0, addJsonElement_cut, ihnext.1]
        change (addJsonElement env (cutItem item).string (cutItem item) _ _).bind _ = _
        cases hp : addJsonElement env (cutItem item).string (cutItem item)
            (addJsonObject env (printed child)) (addJsonArray env 0 (printed child)) with
        | none => rfl
        | some p =>
            have hcode := addJsonElement_code hcut hp
            simp [hcode, Function.comp_def]
      · intro i
        have hzero : (some (Decimal.natText i)).map cString = some (Decimal.natText i) :=
          congrArg some (cString_of_notMem (zero_notMem_natText i))
        rw [addJsonArray, printed, if_neg hnull, chainCode, if_neg hnull, addJsonArray, ihchild.1,
          ihchild.2 0, addJsonElement_cut, ihnext.2, hzero]
        cases hp : addJsonElement env (some (Decimal.natText i)) (cutItem item)
            (addJsonObject env (printed child)) (addJsonArray env 0 (printed child)) with
        | none => rfl
        | some p =>
            have hcode := addJsonElement_code hcut hp
            simp [hcode, Function.comp_def]

/-- What is printed of a part of a document can be read by the shell. -/
def PartPrintable : Part → Json → Prop
  | .value _, j | .elements _, j => Printable false (printed j)
  | .members _, j => Printable true (printed j)

theorem zero_notMem_map_cString {str : Option Text} (h : str ≠ none) :
    ∃ s ∈ str.map cString, 0 ∉ s := by
  obtain ⟨s, rfl⟩ := Option.ne_none_iff_exists'.mp h
  exact ⟨cString s, rfl, zero_notMem_cString s⟩

/-- A node in front of a chain. -/
theorem Printable.printed_node {keyed : Bool} {item : Item} {child next : Json}
    (hkey : keyed = true → item.string ≠ none)
    (hv : Printable false (printed (.node item child .nil)))
    (hnext : Printable keyed (printed next)) : Printable keyed (printed (.node item child next)) := by
  rw [printed] at hv ⊢
  by_cases hnull : item.type = .null
  · rw [if_pos hnull]
    trivial
  · rw [if_neg hnull] at hv ⊢
    obtain ⟨htype, -, hstr, hobject, harray, -⟩ := hv
    exact ⟨htype, fun h => zero_notMem_map_cString (hkey h), hstr, hobject, harray, hnext⟩

theorem printable_alone {item : Item} {child : Json}
    (hstr : item.type = .string → item.valuestring ≠ none)
    (hobject : item.type = .object → Printable true (printed child))
    (harray : item.type = .array → Printable false (printed child)) :
    Printable false (printed (.node item child .nil)) := by
  rw [printed]
  split
  · trivial
  · next hnull =>
      refine ⟨hnull, ?_, fun h => zero_notMem_map_cString (hstr h), hobject, harray, trivial⟩
      intro h
      cases h

theorem partPrintable {p : Part} {j : Json} (h : Mirrors p j) : PartPrintable p j := by
  induction h with
  | null htype => apply printable_alone <;> simp [htype]
  | bool b htype => cases b <;> apply printable_alone <;> simp [htype]
  | number htype => apply printable_alone <;> simp [htype]
  | string htype hvalue => apply printable_alone <;> simp [htype, hvalue]
  | array htype hchild ih =>
      apply printable_alone
      · simp [htype]
      · simp [htype]
      · exact fun _ => ih
  | object htype hchild ih =>
      apply printable_alone
      · simp [htype]
      · exact fun _ => ih
      · simp [htype]
  | noElements => trivial
  | element hv hnext ihv ihnext =>
      exact Printable.printed_node (fun h => nomatch h) ihv ihnext
  | noMembers => trivial
  | member hkey hv hnext ihv ihnext =>
      exact Printable.printed_node (fun _ => hkey) ihv ihnext

/-! ## Counting -/

/-- The keys of a node and what is below it. -/
theorem keys_node (index : Option Nat) (item : Item) (child next : Json) :
    keys index (.node item child next)
      = keys index (.node item child .nil) ++ keys (index.map (· + 1)) next := by
  simp [keys]

theorem keyWord_cutItem (index : Option Nat) (item : Item) :
    keyWord index (cutItem item) = keyWord index item := by
  unfold keyWord cutItem
  cases item.string with
  | none => rfl
  | some str => simp [cString_cString]

theorem keys_cutItem (index : Option Nat) (item : Item) (child next : Json) :
    keys index (.node (cutItem item) child next) = keys index (.node item child next) := by
  rw [keys, keys, keyWord_cutItem]
  rfl

/-- Everything is printed of a part without null, and not all of one with null. -/
def PartCounted (p : Part) (j : Json) : Prop :=
  ∀ index, (p.NoNull → keys index (printed j) = keys index j) ∧
    (keys index (printed j)).length ≤ (keys index j).length ∧
    (¬p.NoNull → (keys index (printed j)).length < (keys index j).length)

theorem PartCounted.node {p q r : Part} {item : Item} {child next : Json}
    (hr : r.NoNull ↔ p.NoNull ∧ q.NoNull) (hv : PartCounted p (.node item child .nil))
    (hnext : PartCounted q next) : PartCounted r (.node item child next) := by
  intro index
  obtain ⟨hsame, hle, hlt⟩ := hv index
  obtain ⟨hsame', hle', hlt'⟩ := hnext (index.map (· + 1))
  rw [printed] at hsame hle hlt ⊢
  rw [keys_node index item child next]
  by_cases hnull : item.type = .null
  · -- the chain ends here
    rw [if_pos hnull] at hsame ⊢
    have hpos : 0 < (keys index (.node item child .nil)).length := by simp [keys]
    have hnot : ¬r.NoNull := by
      intro h
      rw [← hsame (hr.mp h).1] at hpos
      exact absurd hpos (by simp [keys])
    refine ⟨fun h => absurd h hnot, Nat.zero_le _, fun _ => ?_⟩
    rw [List.length_append]
    exact Nat.lt_of_lt_of_le hpos (Nat.le_add_right _ _)
  · rw [if_neg hnull] at hsame hle hlt ⊢
    rw [keys_node index (cutItem item) (printed child) (printed next), List.length_append,
      List.length_append]
    refine ⟨fun h => ?_, Nat.add_le_add hle hle', fun h => ?_⟩
    · rw [hsame' (hr.mp h).2]
      exact congrArg (· ++ _) (hsame (hr.mp h).1)
    · by_cases hp : p.NoNull
      · have hq : ¬q.NoNull := fun hq => h (hr.mpr ⟨hp, hq⟩)
        exact Nat.add_lt_add_of_le_of_lt hle (hlt' hq)
      · exact Nat.add_lt_add_of_lt_of_le (hlt hp) hle'

/-- A value that is no null and has `p` below it. -/
theorem PartCounted.alone {v : Tree} {p : Part} {item : Item} {child : Json} {i : Option Nat}
    (hv : v.NoNull ↔ p.NoNull) (htype : item.type ≠ .null)
    (hbelow : ∀ index c, keys index (.node item c .nil) = keyWord index item :: keys i c)
    (hchild : PartCounted p child) : PartCounted (.value v) (.node item child .nil) := by
  intro index
  obtain ⟨hsame, hle, hlt⟩ := hchild i
  have hprinted : keys index (printed (.node item child .nil))
      = keyWord index item :: keys i (printed child) := by
    rw [printed, if_neg htype, keys_cutItem]
    exact hbelow index (printed child)
  rw [hprinted, hbelow]
  refine ⟨fun h => ?_, Nat.succ_le_succ hle, fun h => ?_⟩
  · rw [hsame (hv.mp h)]
  · exact Nat.succ_lt_succ (hlt fun hp => h (hv.mpr hp))

/-- A value without anything below it. -/
theorem PartCounted.leaf {v : Tree} {item : Item} (hv : v.NoNull) (htype : item.type ≠ .null) :
    PartCounted (.value v) (.node item .nil .nil) := by
  intro index
  have hsame : keys index (printed (.node item .nil .nil)) = keys index (.node item .nil .nil) := by
    rw [printed, if_neg htype, keys_cutItem]
    rfl
  rw [hsame]
  exact ⟨fun _ => rfl, Nat.le_refl _, fun h => absurd hv h⟩

theorem partCounted {p : Part} {j : Json} (h : Mirrors p j) : PartCounted p j := by
  induction h with
  | null htype =>
      intro index
      rw [printed, if_pos htype]
      refine ⟨fun h => h.elim, Nat.zero_le _, fun _ => ?_⟩
      simp [keys]
  | bool b htype => exact .leaf trivial (by cases b <;> simp [htype])
  | number htype => exact .leaf trivial (by simp [htype])
  | string htype hvalue => exact .leaf trivial (by simp [htype])
  | array htype hchild ih =>
      apply PartCounted.alone Iff.rfl (by simp [htype]) _ ih
      · exact some 0
      · intro index c
        simp [keys, htype]
  | object htype hchild ih =>
      apply PartCounted.alone Iff.rfl (by simp [htype]) _ ih
      · exact none
      · intro index c
        simp [keys, htype]
  | noElements => exact fun index => ⟨fun _ => rfl, Nat.le_refl _, fun h => (h trivial).elim⟩
  | element hv hnext ihv ihnext => exact .node Iff.rfl ihv ihnext
  | noMembers => exact fun index => ⟨fun _ => rfl, Nat.le_refl _, fun h => (h trivial).elim⟩
  | member hkey hv hnext ihv ihnext => exact .node Iff.rfl ihv ihnext

/-! ## The commands of a text -/

/-- A chain that is printed has a command for each of its keys. -/
theorem script_adds (env : Libc) (j : Json) : ∀ index : Option Nat, Printable index.isNone j →
    ∃ sub, sub.Sublist (script env index j) ∧ List.Forall₂ Adds (keys index j) sub := by
  induction j with
  | nil => exact fun _ _ => ⟨[], .slnil, .nil⟩
  | node item child next ihchild ihnext =>
      intro index h
      obtain ⟨hnull, hkey, -, hobject, harray, hnext⟩ := h
      obtain ⟨type, htype⟩ := Option.ne_none_iff_exists'.mp (mt typeName_eq_none.mp hnull)
      obtain ⟨rest, hrest, hadds⟩ := ihnext (index.map (· + 1)) (by simpa using hnext)
      -- what is below the node
      obtain ⟨sub, hsub, hbelow⟩ : ∃ sub, sub.Sublist (contents item (script env none child)
            (script env (some 0) child)) ∧
          List.Forall₂ Adds (match item.type with
            | .object => keys none child
            | .array => keys (some 0) child
            | _ => []) sub := by
        cases hitem : item.type with
        | object =>
            obtain ⟨sub, hsub, hbelow⟩ := ihchild none (hobject hitem)
            exact ⟨sub, by rw [contents, hitem]; exact hsub.trans (List.sublist_append_left _ _), hbelow⟩
        | array =>
            obtain ⟨sub, hsub, hbelow⟩ := ihchild (some 0) (harray hitem)
            exact ⟨sub, by rw [contents, hitem]; exact hsub.trans (List.sublist_append_left _ _), hbelow⟩
        | null => exact ⟨[], List.nil_sublist _, .nil⟩
        | string => exact ⟨[], List.nil_sublist _, .nil⟩
        | number => exact ⟨[], List.nil_sublist _, .nil⟩
        | true => exact ⟨[], List.nil_sublist _, .nil⟩
        | false => exact ⟨[], List.nil_sublist _, .nil⟩
      have hword : (index.map Decimal.natText).getD (writeKeyString (item.string.getD []))
          = keyWord index item := by
        unfold keyWord
        cases index with
        | some i => rfl
        | none =>
            obtain ⟨key, hmem, hzero⟩ := hkey rfl
            have hstring : item.string = some key := hmem
            simp [hstring, cString_of_notMem hzero]
      refine ⟨_ :: sub ++ rest, (hsub.cons_cons _).append hrest, ?_⟩
      rw [keys]
      refine List.rel_append (.cons ⟨type, valueWords env item, typeName_mem htype, ?_⟩ hbelow) hadds
      rw [htype, hword]
      rfl

/-- Only these commands have arguments. -/
theorem script_length (env : Libc) (j : Json) : ∀ index : Option Nat,
    ((script env index j).filter fun cmd => 2 ≤ cmd.length).length = (keys index j).length := by
  induction j with
  | nil => exact fun _ => rfl
  | node item child next ihchild ihnext =>
      intro index
      rw [script, keys, List.filter_append, List.filter_cons_of_pos (by simp)]
      simp only [List.length_append, List.length_cons, ihnext]
      congr 2
      cases hitem : item.type with
      | object => simp [contents, hitem, ihchild none]
      | array => simp [contents, hitem, ihchild (some 0)]
      | null => simp [contents, hitem]
      | string => simp [contents, hitem]
      | number => simp [contents, hitem]
      | true => simp [contents, hitem]
      | false => simp [contents, hitem]

/-- There are no more keys than commands with arguments. -/
theorem length_le_of_adds {ks : List Shell.Word} {sub cmds : List Shell.Command}
    (hsub : sub.Sublist cmds) (hadds : List.Forall₂ Adds ks sub) :
    ks.length ≤ (cmds.filter fun cmd => 2 ≤ cmd.length).length := by
  have hkeep : sub.filter (fun cmd => 2 ≤ cmd.length) = sub := by
    clear hsub
    induction hadds with
    | nil => rfl
    | cons h _ ih =>
        obtain ⟨type, args, -, rfl⟩ := h
        rw [List.filter_cons_of_pos (by simp), ih]
  rw [hadds.length_eq, ← hkeep]
  exact (hsub.filter _).length_le

/-! ## The whole text -/

/-- **A JSON object is printed completely exactly when there is no null in it**, and
`jshn_parse` returns 0 in any case. -/
theorem jshnParse_complete_iff {env : Libc} (henv : NanPlain env) {s rest : Text}
    {ms : List (List CharUnit × Tree)} (h : Json.Reads (.value (.object ms)) s rest) (z : Text) :
    ∃ item child, jsonParse env (s ++ 0 :: z) = .ok (.node item child .nil) (rest ++ 0 :: z) ∧
      Mirrors (.members ms) child ∧
      (CompleteOrFails env (s ++ 0 :: z) child ↔ (Tree.object ms).NoNull) := by
  obtain ⟨item, child, hparse, hobject, hmirrors⟩ := h.jsonParse_object env (0 :: z)
  obtain ⟨text, htext, hreads⟩ := (reads_script henv (printed child)).1 (partPrintable hmirrors)
  have hcommands := (reads_jsonInit.append hreads).commands
  have hrun : jshnParse env (s ++ 0 :: z) = some (jsonInit ++ endLine ++ text, 0) := by
    simp [jshnParse, hparse, hobject, (addJson_printed env child).1, htext]
  obtain ⟨hsame, -, hlt⟩ := partCounted hmirrors none
  refine ⟨item, child, hparse, hmirrors, ?_, ?_⟩
  · intro hcomplete
    by_contra hnull
    obtain ⟨cmds, hcmds, sub, hsub, hadds⟩ := hcomplete _ hrun
    rw [hcommands, Option.some.injEq] at hcmds
    subst hcmds
    have hle := length_le_of_adds hsub hadds
    rw [List.singleton_append, List.filter_cons_of_neg (by simp), script_length] at hle
    exact absurd (hlt hnull) (Nat.not_lt.mpr hle)
  · intro hnull text' htext'
    rw [hrun, Option.some.injEq, Prod.mk.injEq] at htext'
    obtain ⟨rfl, -⟩ := htext'
    obtain ⟨sub, hsub, hadds⟩ := script_adds env (printed child) none (partPrintable hmirrors)
    rw [hsame hnull] at hadds
    exact ⟨_, hcommands, sub, hsub.trans (List.sublist_append_right _ _), hadds⟩

/-- `{"a":true}`. -/
theorem reads_one : Json.Reads (.value (.object [([.byte 97], .bool true)]))
    [123, 34, 97, 34, 58, 116, 114, 117, 101, 125] [] := by
  have hvalue : Json.Reads (.value (.bool true)) [116, 114, 117, 101, 125] [125] := .bool true rfl
  exact .object rfl (.lastMember rfl (.plain (by decide) (.close _)) rfl hvalue rfl)

theorem jshnParse_complete_iff_one :
    ∃ item child, jsonParse default [123, 34, 97, 34, 58, 116, 114, 117, 101, 125, 0]
        = .ok (.node item child .nil) [0] ∧
      Mirrors (.members [([.byte 97], .bool true)]) child ∧
      (CompleteOrFails default [123, 34, 97, 34, 58, 116, 114, 117, 101, 125, 0] child
        ↔ (Tree.object [([.byte 97], .bool true)]).NoNull) :=
  jshnParse_complete_iff (.inl rfl) reads_one []

/-- `{"a":null,"b":true}`: the text of an empty object is printed, and 0 returned. -/
theorem jshnParse_drops :
    ∃ item child, jsonParse default [123, 34, 97, 34, 58, 110, 117, 108, 108, 44, 34, 98, 34, 58,
        116, 114, 117, 101, 125, 0] = .ok (.node item child .nil) [0] ∧
      keys none child = [[97], [98]] ∧
      jshnParse default [123, 34, 97, 34, 58, 110, 117, 108, 108, 44, 34, 98, 34, 58, 116, 114, 117,
        101, 125, 0] = some (jsonInit ++ endLine, 0) ∧
      ¬CompleteOrFails default [123, 34, 97, 34, 58, 110, 117, 108, 108, 44, 34, 98, 34, 58, 116, 114,
        117, 101, 125, 0] child := by
  have hparse : jsonParse default [123, 34, 97, 34, 58, 110, 117, 108, 108, 44, 34, 98, 34, 58, 116,
      114, 117, 101, 125, 0] = .ok (.node { newItem with type := .object }
        (.node { newItem with type := .null, string := some [97] } .nil
          (.node { newItem with type := .true, valueint := 1, string := some [98] } .nil .nil))
        .nil) [0] := by
    rfl
  have hrun : jshnParse default [123, 34, 97, 34, 58, 110, 117, 108, 108, 44, 34, 98, 34, 58, 116,
      114, 117, 101, 125, 0] = some (jsonInit ++ endLine, 0) := by
    rw [jshnParse, hparse]
    rfl
  refine ⟨_, _, hparse, by decide, hrun, ?_⟩
  intro hcomplete
  obtain ⟨cmds, hcmds, sub, hsub, hadds⟩ := hcomplete _ hrun
  have hcommands : Shell.commands (jsonInit ++ endLine) = some [[jsonInit]] :=
    reads_jsonInit.commands
  rw [hcommands, Option.some.injEq] at hcmds
  subst hcmds
  exact absurd (length_le_of_adds hsub hadds) (by decide)

end Jshn

end Libubox
