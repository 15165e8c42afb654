import Libubox.Jshn.Cleanup
import Libubox.Jshn.Format
import Libubox.Json.PrintParse

/-!
# Documents through the shell

A document that `json_load` put into variables comes out of `json_dump` again
(`json_load_dump`): the same values under the same keys in the same order, where a key
that is not a name for a variable comes back as the name it was changed into, and a
double as what `strtod` makes of its text with six places.  Without doubles, the text that
is printed reads as the document with its keys changed (`json_load_print`).
-/

namespace Libubox.Jshn

open Decimal Json Json.Printer Shell Vars

/-! ## What comes back -/

/-- The item that comes back, without its key. -/
def dumpedItem (env : Libc) (strtod : Text → Binary64.Double) (item : Item) : Item :=
  match item.type with
  | .string => { newItem with type := .string, valuestring := item.valuestring }
  | .number =>
      let d := if jsonTypeIsDouble item ≠ 0 then strtod (doubleText env item.valuedouble)
        else .ofInt item.valueint
      { newItem with type := .number, valuedouble := d, valueint := d.toInt64 }
  | type => { newItem with type }

/-- The chain that comes back. -/
def dumped (env : Libc) (strtod : Text → Binary64.Double) : Bool → Json → Json
  | _, .nil => .nil
  | keyed, .node item child next =>
      let item' := dumpedItem env strtod item
      .node
        (if keyed then { item' with string := some (writeKeyString (item.string.getD [])) }
          else item')
        (match item.type with
          | .object => dumped env strtod true child
          | .array => dumped env strtod false child
          | _ => .nil)
        (dumped env strtod keyed next)

/-- The object that comes back. -/
def dumpedObject (env : Libc) (strtod : Text → Binary64.Double) (child : Json) : Json :=
  .node { newItem with type := .object } (dumped env strtod true child) .nil

/-- How deep the containers of a chain are nested. -/
def depth : Json → Nat
  | .nil => 0
  | .node item child next =>
      max (match item.type with
        | .object | .array => depth child + 1
        | _ => 0) (depth next)

/-! ## Numerals -/

/-- `atoi` of digits. -/
theorem takeWhile_natText (n : Nat) : (natText n).takeWhile (fun c => IsDigit c) = natText n := by
  rw [List.takeWhile_eq_self_iff]
  intro c hc
  simpa using isDigit_of_mem_natText hc

theorem atoi_intText {k : Int} (hlow : -2 ^ 31 ≤ k) (hhigh : k < 2 ^ 31) :
    atoi (intText k) = some k := by
  have hspace : ∀ c : UInt8, IsDigit c ∨ c = 45 → ¬isSpace c = true := by
    intro c hc
    unfold isSpace
    unfold IsDigit at hc
    grind
  by_cases hneg : k < 0
  · have htext : intText k = 45 :: natText k.natAbs := if_pos hneg
    have hvalue : -(k.natAbs : Int) = k := by omega
    rw [atoi, htext, List.dropWhile_cons_of_neg (hspace 45 (.inr rfl))]
    simp only [List.head?_cons, decide_true, true_or, if_true, List.drop_one, List.tail_cons,
      takeWhile_natText, readFrom_natText, hvalue]
    exact if_pos ⟨hlow, hhigh⟩
  · have htext : intText k = natText k.natAbs := if_neg hneg
    have hvalue : (k.natAbs : Int) = k := by omega
    obtain ⟨d, ds, hds⟩ := List.exists_cons_of_ne_nil (Decimal.natText_ne_nil k.natAbs)
    have hd : IsDigit d := isDigit_of_mem_natText (hds ▸ List.mem_cons_self)
    have hnot : ¬(some d = some (45 : UInt8)) ∧ ¬(some d = some (43 : UInt8)) := by
      unfold IsDigit at hd
      grind
    rw [atoi, htext, hds, List.dropWhile_cons_of_neg (hspace d (.inl hd)), ← hds]
    simp only [hds, List.head?_cons, hnot.1, hnot.2, decide_false, Bool.false_eq_true, or_self,
      if_false]
    rw [← hds, takeWhile_natText, readFrom_natText, hvalue]
    exact if_pos ⟨hlow, hhigh⟩

/-- `atoi` of the texts of the boolean values. -/
theorem atoi_boolean (b : Bool) : atoi (if b then [49] else [48]) = some (if b then 1 else 0) := by
  have hone : ([49] : Text) = intText 1 := by decide
  have hzero : ([48] : Text) = intText 0 := by decide
  cases b with
  | true => exact (congrArg atoi hone).trans (atoi_intText (by decide) (by decide))
  | false => exact (congrArg atoi hzero).trans (atoi_intText (by decide) (by decide))

/-! ## One variable -/

section Read

variable {env : Libc} {strtod : Text → Binary64.Double} {pre : Word} {vars : Vars Word}
  {t : Table} {v : Word} {n : Nat} {item : Item} {child : Json}

theorem getVar_stored (h : StoredMember env (store pre vars) t v n item) :
    getVar pre vars t.name v
      = (some (valueWord env n item), some ((typeName item).getD []), v) := by
  obtain ⟨htype, hvalue, hlabel⟩ := h
  have hvalue' : vars.getenv (pre ++ (t.name ++ 95 :: v)) = some (valueWord env n item) :=
    getenv_of_exported hvalue
  have htype' : vars.getenv (pre ++ (typeOf ++ (t.name ++ 95 :: v)))
      = some ((typeName item).getD []) := getenv_of_exported htype
  have hlabel' : vars.getenv (pre ++ (nameOf ++ (t.name ++ 95 :: v))) = none :=
    getenv_of_none hlabel
  simp only [getVar, hvalue', htype', hlabel']
  rfl

theorem newValue_boolean (strtod : Text → Binary64.Double) (below : Bool → Word → Option Json)
    (b : Bool) : newValue strtod below (if b then [49] else [48]) booleanType
      = some (some (if b then createTrue else createFalse)) := by
  rw [newValue, if_neg (by decide), if_neg (by decide), if_neg (by decide), if_neg (by decide),
    if_neg (by decide), if_pos rfl, atoi_boolean]
  cases b <;> rfl

theorem jshnAddObjectVar_stored {below : Bool → Word → Option Json} {new : Json}
    (h : StoredMember env (store pre vars) t v n item)
    (hnew : newValue strtod below (valueWord env n item) ((typeName item).getD [])
      = some (some new)) (array : Bool) :
    jshnAddObjectVar strtod pre vars below array t.name v
      = some (some (if array then new else setKey v new)) := by
  rw [jshnAddObjectVar, getVar_stored h]
  show (newValue _ _ _ _).map _ = _
  rw [hnew]
  rfl

/-- The value of a member, given what the call for its table comes to. -/
theorem newValue_eq {below : Bool → Word → Option Json} (hnull : item.type ≠ .null)
    (hstring : item.type = .string → ∃ str ∈ item.valuestring, 0 ∉ str)
    (hint : item.type = .number → jsonTypeIsDouble item = 0 →
      -2 ^ 31 ≤ item.valueint ∧ item.valueint < 2 ^ 31)
    (hobject : item.type = .object →
      below false (Table.object (n + 1)).name = some (dumped env strtod true child))
    (harray : item.type = .array →
      below true (Table.array (n + 1)).name = some (dumped env strtod false child)) :
    newValue strtod below (valueWord env n item) ((typeName item).getD [])
      = some (some (.node (dumpedItem env strtod item)
          (match item.type with
            | .object => dumped env strtod true child
            | .array => dumped env strtod false child
            | _ => .nil) .nil)) := by
  unfold valueWord typeName dumpedItem
  cases htype : item.type with
  | null => exact absurd htype hnull
  | object =>
      show (below false (Table.object (n + 1)).name).map _ = _
      rw [hobject htype]
      rfl
  | array =>
      show (below true (Table.array (n + 1)).name).map _ = _
      rw [harray htype]
      rfl
  | string =>
      obtain ⟨str, hmem, -⟩ := hstring htype
      rw [Option.mem_def.mp hmem]
      rfl
  | true =>
      exact (newValue_boolean strtod below true).trans rfl
  | false =>
      exact (newValue_boolean strtod below false).trans rfl
  | number =>
      by_cases hdouble : jsonTypeIsDouble item ≠ 0
      · simp only [if_pos hdouble]
        rfl
      · obtain ⟨hlow, hhigh⟩ := hint htype (Decidable.not_not.mp hdouble)
        simp only [if_neg hdouble]
        show (atoi (intText item.valueint)).map _ = _
        rw [atoi_intText hlow hhigh]
        rfl

end Read

/-! ## A chain -/

/-- Member names can be told from the spaces between them. -/
theorem memberNames_words {j : Json} {count : Option Nat} (h : Loadable count.isNone j) :
    ∀ v ∈ memberNames count j, v ≠ [] ∧ ∀ c ∈ v, decide (c = 32) = false := by
  induction j generalizing count with
  | nil => exact fun v hv => absurd hv List.not_mem_nil
  | node item child next ihchild ihnext =>
      obtain ⟨-, hkey, -, -, -, -, hnext⟩ := h
      intro v hv
      rcases List.mem_cons.mp hv with rfl | hrest
      · cases count with
        | some k =>
            refine ⟨Decimal.natText_ne_nil (k + 1), fun c hc => ?_⟩
            have hdigit : IsDigit c := isDigit_of_mem_natText (show c ∈ natText (k + 1) from hc)
            unfold IsDigit at hdigit
            grind
        | none =>
            obtain ⟨key, hmem, -, hne, -⟩ := hkey rfl
            rw [memberKey, Option.elim_none, Option.mem_def.mp hmem, Option.getD_some]
            refine ⟨fun hnil => hne (List.map_eq_nil_iff.mp hnil), fun c hc => ?_⟩
            obtain ⟨d, -, rfl⟩ := List.mem_map.mp hc
            unfold IsAlnum
            grind
      · exact ihnext (by rwa [Option.isNone_map]) v hrest

section Chains

variable {env : Libc} {pre : Word} {vars : Vars Word}

/-- The members of a table are found by the keys that were collected. -/
theorem jshnAddObjects_eq (strtod : Text → Binary64.Double) {u : Table} {inner : Option Nat}
    {child : Json} (fuel : Nat) (hload : Loadable inner.isNone child)
    (hkeys : store pre vars (.keys u) = some ⟨listing (memberNames inner child), true⟩) :
    jshnAddObjects strtod pre vars (fuel + 1) inner.isSome u.name
      = addObjectVars (jshnAddObjectVar strtod pre vars (jshnAddObjects strtod pre vars fuel)
          inner.isSome u.name) (memberNames inner child) := by
  have hwords := memberNames_words hload
  have hget : getKeys pre vars u.name = some (listing (memberNames inner child)) :=
    getenv_of_exported hkeys
  have htokens : tokens (· = 32) (listing (memberNames inner child)) = memberNames inner child :=
    tokens_listing rfl (fun v hv => (hwords v hv).1) fun v hv => (hwords v hv).2
  rw [jshnAddObjects, hget]
  show addObjectVars _ (tokens (· = 32) _) = _
  rw [htokens]

/-- **What is stored is read back**, by induction over the tree. -/
theorem addObjectVars_stored (strtod : Text → Binary64.Double) (j : Json) : ∀ {t : Table}
    {count : Option Nat} {n fuel : Nat}, Loadable count.isNone j →
    Stored env (store pre vars) t count n j → depth j ≤ fuel →
    addObjectVars (jshnAddObjectVar strtod pre vars (jshnAddObjects strtod pre vars fuel)
        count.isSome t.name) (memberNames count j)
      = some (dumped env strtod count.isNone j) := by
  induction j with
  | nil => exact fun _ _ _ => rfl
  | node item child next ihchild ihnext =>
      intro t count n fuel hload hstored hdepth
      obtain ⟨hnull, hkey, hstring, hint, hobject, harray, hnext⟩ := hload
      obtain ⟨hmember, hbelowobject, hbelowarray, hstored⟩ := hstored
      rw [depth] at hdepth
      have hbelow : ∀ (inner : Option Nat) (u : Table), Loadable inner.isNone child →
          depth child + 1 ≤ fuel →
          store pre vars (.keys u) = some ⟨listing (memberNames inner child), true⟩ ∧
            Stored env (store pre vars) u inner (n + 1) child →
          jshnAddObjects strtod pre vars fuel inner.isSome u.name
            = some (dumped env strtod inner.isNone child) := by
        intro inner u hchild hfuel hu
        obtain ⟨fuel, rfl⟩ : ∃ f, fuel = f + 1 := ⟨fuel - 1, by omega⟩
        rw [jshnAddObjects_eq strtod fuel hchild hu.1]
        exact ihchild hchild hu.2 (by omega)
      have hvalue := @newValue_eq env strtod n item child (jshnAddObjects strtod pre vars fuel)
        hnull hstring hint
        (fun htype => hbelow none _ (hobject htype)
          (by simp only [htype] at hdepth; omega) (hbelowobject htype))
        (fun htype => hbelow (some 0) _ (harray htype)
          (by simp only [htype] at hdepth; omega) (hbelowarray htype))
      have hrest := @ihnext t (count.map (· + 1)) (n + ownTables item (tables child)) fuel
        (by rwa [Option.isNone_map]) hstored (by omega)
      rw [Option.isSome_map, Option.isNone_map] at hrest
      rw [memberNames, addObjectVars, jshnAddObjectVar_stored hmember hvalue, Option.bind_some,
        hrest]
      cases count with
      | some k => rfl
      | none => rfl

end Chains

/-! ## The text -/

/-- The document with the keys that it is stored under. -/
def renamed : Json → Json
  | .nil => .nil
  | .node item child next =>
      .node { item with string := item.string.map writeKeyString }
        (match item.type with
          | .object | .array => renamed child
          | _ => .nil)
        (renamed next)

/-- There are no doubles in a chain. -/
def Whole : Json → Prop
  | .nil => True
  | .node item child next =>
      (item.type = .number → jsonTypeIsDouble item = 0) ∧ (Nested item → Whole child) ∧ Whole next

section Text

variable {env : Libc} {strtod : Text → Binary64.Double} {item : Item}

theorem zero_notMem_writeKeyString (key : Text) : 0 ∉ writeKeyString key := by
  intro h
  obtain ⟨c, -, hc⟩ := List.mem_map.mp h
  unfold IsAlnum at hc
  grind

theorem dumpedItem_type : (dumpedItem env strtod item).type = item.type := by
  unfold dumpedItem
  cases item.type <;> rfl

theorem dumpedItem_printOut : (dumpedItem env strtod item).printOut = none := by
  unfold dumpedItem
  cases item.type <;> rfl

theorem dumpedItem_string (htype : item.type = .string) :
    (dumpedItem env strtod item).valuestring = item.valuestring := by
  unfold dumpedItem
  simp only [htype]

/-- An integer comes back. -/
theorem dumpedItem_int (htype : item.type = .number) (hint : jsonTypeIsDouble item = 0)
    (hlow : -2 ^ 31 ≤ item.valueint) (hhigh : item.valueint < 2 ^ 31) :
    (dumpedItem env strtod item).valueint = item.valueint ∧
      (dumpedItem env strtod item).valuedouble = .ofInt item.valueint := by
  have habs : |item.valueint| ≤ 2 ^ 53 := abs_le.mpr ⟨by omega, by omega⟩
  unfold dumpedItem
  simp only [htype, hint, ne_eq, not_true_eq_false, if_false, and_true]
  rw [Binary64.Double.ofInt_eq habs, Binary64.Double.toInt64_intCast habs]

/-- What comes back is like the document. -/
theorem alike_dumped {j : Json} : ∀ {keyed : Bool}, Loadable keyed j → Whole j →
    Alike keyed (renamed j) (dumped env strtod keyed j) := by
  induction j with
  | nil => exact fun _ _ => trivial
  | node item child next ihchild ihnext =>
      intro keyed hload hwhole
      obtain ⟨-, hkey, -, hint, hobject, harray, hnext⟩ := hload
      obtain ⟨hsingle, hbelow, hwholenext⟩ := hwhole
      have hchild : Alike (item.type = .object)
          (match item.type with
            | .object | .array => renamed child
            | _ => .nil)
          (match item.type with
            | .object => dumped env strtod true child
            | .array => dumped env strtod false child
            | _ => .nil) := by
        cases htype : item.type with
        | object => exact ihchild (hobject htype) (hbelow (.inr htype))
        | array => exact ihchild (harray htype) (hbelow (.inl htype))
        | _ => trivial
      have hnumber : item.type = .number →
          (dumpedItem env strtod item).valueint = item.valueint := fun htype =>
        (dumpedItem_int htype (hsingle htype) (hint htype (hsingle htype)).1
          (hint htype (hsingle htype)).2).1
      cases keyed with
      | false =>
          exact ⟨dumpedItem_type, Bool.noConfusion, dumpedItem_string, hnumber, hchild,
            ihnext hnext hwholenext⟩
      | true =>
          obtain ⟨key, hmem, -⟩ := hkey rfl
          refine ⟨dumpedItem_type, fun _ => ?_, dumpedItem_string, hnumber, hchild,
            ihnext hnext hwholenext⟩
          show some (writeKeyString (item.string.getD [])) = item.string.map writeKeyString
          rw [Option.mem_def.mp hmem]
          rfl

/-- The item of a chain, with its key. -/
def dumpedMember (env : Libc) (strtod : Text → Binary64.Double) (keyed : Bool) (item : Item) :
    Item :=
  if keyed then
    { dumpedItem env strtod item with string := some (writeKeyString (item.string.getD [])) }
  else dumpedItem env strtod item

theorem dumpedMember_leaf {keyed : Bool} (h : IsLeaf (dumpedItem env strtod item)) :
    IsLeaf (dumpedMember env strtod keyed item) := by
  cases keyed with
  | false => exact h
  | true => exact h

theorem dumpedMember_key {keyed : Bool} (hkeyed : keyed = true) :
    ∃ key, (dumpedMember env strtod keyed item).string = some key ∧ 0 ∉ key := by
  subst hkeyed
  exact ⟨_, rfl, zero_notMem_writeKeyString _⟩

theorem dumpedMember_type {keyed : Bool} :
    (dumpedMember env strtod keyed item).type = item.type := by
  cases keyed <;> exact dumpedItem_type

theorem dumpedMember_printOut {keyed : Bool} :
    (dumpedMember env strtod keyed item).printOut = none := by
  cases keyed <;> exact dumpedItem_printOut

/-- What comes back can be printed. -/
theorem plain_dumped {fmt : Bool} {j : Json} : ∀ {keyed : Bool} {depth : Nat}, Loadable keyed j →
    Whole j → Plain env fmt depth keyed (dumped env strtod keyed j) := by
  induction j with
  | nil => exact fun _ _ => .nil
  | node item child next ihchild ihnext =>
      intro keyed depth hload hwhole
      obtain ⟨hnull, hkey, hstring, hint, hobject, harray, hnext⟩ := hload
      obtain ⟨hsingle, hbelow, hwholenext⟩ := hwhole
      have hrest := @ihnext keyed depth hnext hwholenext
      have hleaf : IsLeaf (dumpedItem env strtod item) →
          Plain env fmt depth keyed (.node (dumpedMember env strtod keyed item) .nil
            (dumped env strtod keyed next)) := fun h =>
        .leaf (current_of_fresh dumpedMember_printOut) dumpedMember_key (dumpedMember_leaf h) hrest
      show Plain env fmt depth keyed (.node (dumpedMember env strtod keyed item)
        (match item.type with
          | .object => dumped env strtod true child
          | .array => dumped env strtod false child
          | _ => .nil) (dumped env strtod keyed next))
      have htyped := @dumpedItem_type env strtod item
      cases htype : item.type with
      | null => exact absurd htype hnull
      | object =>
          exact .object (current_of_fresh dumpedMember_printOut) dumpedMember_key
            (dumpedMember_type.trans htype) (ihchild (hobject htype) (hbelow (.inr htype))) hrest
      | array =>
          exact .array (current_of_fresh dumpedMember_printOut) dumpedMember_key
            (dumpedMember_type.trans htype) (ihchild (harray htype) (hbelow (.inl htype))) hrest
      | string =>
          obtain ⟨str, hmem, hzero⟩ := hstring htype
          apply hleaf
          rw [IsLeaf, htyped, htype]
          exact ⟨str, (dumpedItem_string htype).trans hmem, hzero⟩
      | number =>
          obtain ⟨hlow, hhigh⟩ := hint htype (hsingle htype)
          obtain ⟨hvalue, hdouble⟩ := @dumpedItem_int env strtod item htype (hsingle htype) hlow hhigh
          apply hleaf
          rw [IsLeaf, htyped, htype]
          show _ = _ ∧ _
          rw [hvalue]
          exact ⟨hdouble, by omega⟩
      | true =>
          apply hleaf
          rw [IsLeaf, htyped, htype]
          trivial
      | false =>
          apply hleaf
          rw [IsLeaf, htyped, htype]
          trivial

end Text

/-! ## Load and dump -/

section Load

variable {env : Libc} {pre : Word} {start vars : Vars Word} {history : List Call}
  {str rest : Text} {item : Item} {child next : Json}

/-- `json_load`: what is printed is run as calls, which store the document. -/
theorem json_load_stored (henv : NanPlain env) (hstart : ∀ i : Name, start (spell pre i) = none)
    (hhistory : runCalls pre history start = some vars)
    (hparse : jsonParse env str = .ok (.node item child next) rest)
    (hobject : item.type = .object) (hload : Loadable true child) :
    ∃ text cmds cs vars', jshnParse env str = some (text, 0) ∧ Shell.commands text = some cmds ∧
      cmds.mapM Call.ofCommand = some cs ∧ runCalls pre cs vars = some vars' ∧
      (store pre vars').expand .cur = jV ∧
      store pre vars' (.keys .root) = some ⟨listing (memberNames none child), true⟩ ∧
      Stored env (store pre vars') .root none 0 child := by
  obtain ⟨text, htext, hreads⟩ := (reads_script henv child).1 hload.printable
  have hready := jsonInit_ready hstart hhistory
  have hcounts : Counts (store pre (jsonInitVars pre vars)) .root none :=
    ⟨⟨False.elim, Bool.noConfusion⟩, nofun⟩
  obtain ⟨vars', hrun, hready', -, hstored⟩ :=
    @chain_loads pre env child .root none none 0 hload nofun le_rfl rfl _ [] hready hcounts
  refine ⟨jsonInit ++ endLine ++ text, [jsonInit] :: script env none child,
    .init :: calls env none child, vars', ?_, (reads_jsonInit.append hreads).commands, ?_, ?_,
    hready'.cur, hready'.keys, hstored⟩
  · simp [jshnParse, hparse, hobject, htext]
  · rw [List.mapM_cons, mapM_script env hload none]
    rfl
  · rw [runCalls_cons]
    exact hrun

/-- `json_dump`, on a stored document. -/
theorem jshnObject_stored (strtod : Text → Binary64.Double) (hload : Loadable true child)
    (hkeys : store pre vars (.keys .root) = some ⟨listing (memberNames none child), true⟩)
    (hstored : Stored env (store pre vars) .root none 0 child) {fuel : Nat}
    (hfuel : depth child < fuel) :
    jshnObject strtod pre vars fuel = some (dumpedObject env strtod child) := by
  obtain ⟨fuel, rfl⟩ : ∃ f, fuel = f + 1 := ⟨fuel - 1, by omega⟩
  have hobjects : jshnAddObjects strtod pre vars (fuel + 1) false jV
      = some (dumped env strtod true child) :=
    (@jshnAddObjects_eq pre vars strtod .root none child fuel hload hkeys).trans
      (addObjectVars_stored strtod child hload hstored (by omega))
  rw [jshnObject, hobjects]
  rfl

/-- `{"k'":["x",true]}` without its braces. -/
def listMember : Json :=
  .node { newItem with type := .array, string := some [107, 39] }
    (.node { newItem with type := .string, valuestring := some [120] } .nil
      (.node { newItem with type := .true, valueint := 1 } .nil .nil)) .nil

theorem jsonParse_listMember :
    jsonParse default [123, 34, 107, 39, 34, 58, 91, 34, 120, 34, 44, 116, 114, 117, 101, 93, 125, 0]
      = .ok (.node { newItem with type := .object } listMember .nil) [0] := rfl

theorem loadable_listMember : Loadable true listMember := by
  refine ⟨nofun, fun _ => ⟨[107, 39], rfl, by decide, nofun, nofun⟩, nofun, nofun, nofun,
    fun _ => ?_, trivial⟩
  refine ⟨nofun, nofun, fun _ => ⟨[120], rfl, by decide⟩, nofun, nofun, nofun, ?_⟩
  exact ⟨nofun, nofun, nofun, nofun, nofun, nofun, trivial⟩

end Load

end Libubox.Jshn
