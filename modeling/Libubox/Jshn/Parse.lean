import Libubox.Json.Parse
import Libubox.Lib.Shell
import Mathlib.Data.List.TakeWhile

/-!
# The shell text of a JSON object

`jshn_parse` of `jshn.c`: the text that `json_load` hands to `eval`.  A chain
of members is printed by `addJsonObject`, a chain of array elements by
`addJsonArray`.  What a call prints is a text and its return value; a null
pointer that is read as a string makes it `none`.

`script` is the list of simple commands that the text stands for, in pre-order.
`jshnParse_commands` says that the shell reads exactly these commands.
-/

namespace Libubox.Json

open Binary64 Decimal

/-! ## Numbers -/

/-- `json_type_is_double`. -/
def jsonTypeIsDouble (item : Item) : Int :=
  if item.type ≠ .number then -1
  else if ((Double.ofInt item.valueint).sub item.valuedouble).abs.le dblEpsilon
      ∧ item.valuedouble.le (.ofInt (2 ^ 63 - 1)) ∧ (Double.ofInt (-2 ^ 63)).le item.valuedouble then 0
  else 1

/-- `%lf`. -/
def doubleText (env : Libc) : Double → Text
  | .finite q => fixedText 6 q
  | .inf negative => if negative then [45, 105, 110, 102] else [105, 110, 102]
  | .nan => env.nanText

end Json

namespace Jshn

open Json

/-! ## Strings -/

/-- The bytes that are read of a C string. -/
def cString (str : Text) : Text := str.takeWhile (· ≠ 0)

/-- The loop of `add_json_string`, on the string from `ptr` on. -/
def addJsonString (ptr : Text) : Text :=
  match h : ptr.dropWhile (· ≠ Shell.quote) with
  | [] => ptr
  | _ :: rest =>
      ptr.takeWhile (· ≠ Shell.quote) ++ [39, 92, 39, 39] ++ addJsonString rest
termination_by ptr.length
decreasing_by
  have hle := (List.dropWhile_suffix (l := ptr) (· ≠ Shell.quote)).length_le
  rw [h] at hle
  exact hle

/-- `write_key_string`. -/
def writeKeyString (key : Text) : Text := key.map fun c => if Shell.IsAlnum c then c else 95

/-! ## Elements -/

/-- What a call prints and what it returns. -/
abbrev Printed := Text × Int

/-- `object`, `array`, `string`, `boolean`, `double` or `int`. -/
def typeName (item : Item) : Option Text :=
  match item.type with
  | .object => some [111, 98, 106, 101, 99, 116]
  | .array => some [97, 114, 114, 97, 121]
  | .string => some [115, 116, 114, 105, 110, 103]
  | .true | .false => some [98, 111, 111, 108, 101, 97, 110]
  | .number =>
      if jsonTypeIsDouble item ≠ 0 then some [100, 111, 117, 98, 108, 101]
      else some [105, 110, 116]
  | .null => none

/-- `json_init`. -/
def jsonInit : Text := [106, 115, 111, 110, 95, 105, 110, 105, 116]

/-- `json_add_`. -/
def jsonAdd : Text := [106, 115, 111, 110, 95, 97, 100, 100, 95]

/-- `json_close_object`. -/
def jsonCloseObject : Text :=
  [106, 115, 111, 110, 95, 99, 108, 111, 115, 101, 95, 111, 98, 106, 101, 99, 116]

/-- `json_close_array`. -/
def jsonCloseArray : Text :=
  [106, 115, 111, 110, 95, 99, 108, 111, 115, 101, 95, 97, 114, 114, 97, 121]

/-- A semicolon and a newline. -/
def endLine : Text := [59, 10]

/-- The second `switch` of `add_json_element`: what stands behind the key.  The
return values of `add_json_object` and `add_json_array`, which print `members`
and `elements`, are not looked at. -/
def elementTail (env : Libc) (item : Item) (members elements : Option Printed) :
    Option Printed :=
  match item.type with
  | .object => members.map fun p => (39 :: endLine ++ p.1 ++ (jsonCloseObject ++ endLine), 0)
  | .array => elements.map fun p => (39 :: endLine ++ p.1 ++ (jsonCloseArray ++ endLine), 0)
  | .string =>
      item.valuestring.map fun str =>
        ([39, 32, 39] ++ addJsonString (cString str) ++ (39 :: endLine), 0)
  | .true => some ([39, 32, 49] ++ endLine, 0)
  | .false => some ([39, 32, 48] ++ endLine, 0)
  | .number =>
      if jsonTypeIsDouble item ≠ 0 then
        some ([39, 32] ++ doubleText env item.valuedouble ++ endLine, 0)
      else some ([39, 32] ++ Decimal.intText item.valueint ++ (32 :: endLine), 0)
  | .null => some ([], -1)

/-- `add_json_element`. -/
def addJsonElement (env : Libc) (key : Option Text) (item : Item)
    (members elements : Option Printed) : Option Printed :=
  match typeName item with
  | none => some ([], -1)
  | some type =>
      key.bind fun key =>
        (elementTail env item members elements).map fun p =>
          (jsonAdd ++ type ++ [32, 39] ++ writeKeyString (cString key) ++ p.1, p.2)

mutual

/-- `add_json_object`, on the members that are left. -/
def addJsonObject (env : Libc) : Json → Option Printed
  | .nil => some ([], 0)
  | .node item child next =>
      (addJsonElement env item.string item (addJsonObject env child)
          (addJsonArray env 0 child)).bind fun p =>
        if p.2 ≠ 0 then some p
        else (addJsonObject env next).map fun q => (p.1 ++ q.1, q.2)

/-- `add_json_array`, on the elements that are left. -/
def addJsonArray (env : Libc) (i : Nat) : Json → Option Printed
  | .nil => some ([], 0)
  | .node item child next =>
      (addJsonElement env (some (Decimal.natText i)) item (addJsonObject env child)
          (addJsonArray env 0 child)).bind fun p =>
        if p.2 ≠ 0 then some p
        else (addJsonArray env (i + 1) next).map fun q => (p.1 ++ q.1, q.2)

end

/-- `jshn_parse`: the standard output and the return value. -/
def jshnParse (env : Libc) (str : Text) : Option Printed :=
  match jsonParse env str with
  | .fault => none
  | .null _ | .ok .nil _ => some ([], 1)
  | .ok (.node item child _) _ =>
      if item.type ≠ .object then some ([], 1)
      else (addJsonObject env child).map fun p => (jsonInit ++ endLine ++ p.1, 0)

/-! ## The commands -/

/-- The value of a scalar as a word. -/
def valueWords (env : Libc) (item : Item) : List Shell.Word :=
  match item.type with
  | .string => item.valuestring.toList
  | .true => [[49]]
  | .false => [[48]]
  | .number =>
      if jsonTypeIsDouble item ≠ 0 then [doubleText env item.valuedouble]
      else [Decimal.intText item.valueint]
  | .object | .array | .null => []

/-- The commands of a container behind its own: those of its `members` or
`elements` and the closing one. -/
def contents (item : Item) (members elements : List Shell.Command) : List Shell.Command :=
  match item.type with
  | .object => members ++ [[jsonCloseObject]]
  | .array => elements ++ [[jsonCloseArray]]
  | _ => []

/-- The commands of a chain, in pre-order: the members of an object, or with
`some i` the elements of an array from the one with index `i` on. -/
def script (env : Libc) : Option Nat → Json → List Shell.Command
  | _, .nil => []
  | index, .node item child next =>
      let key := (index.map Decimal.natText).getD (writeKeyString (item.string.getD []))
      ((jsonAdd ++ (typeName item).getD []) :: key :: valueWords env item)
        :: contents item (script env none child) (script env (some 0) child)
        ++ script env (index.map (· + 1)) next

/-- No null value, and keys and strings of non-zero bytes; the members of an
object have keys. -/
def Printable : Bool → Json → Prop
  | _, .nil => True
  | keyed, .node item child next =>
      item.type ≠ .null ∧ (keyed = true → ∃ key ∈ item.string, 0 ∉ key)
        ∧ (item.type = .string → ∃ str ∈ item.valuestring, 0 ∉ str)
        ∧ (item.type = .object → Printable true child)
        ∧ (item.type = .array → Printable false child) ∧ Printable keyed next

instance Printable.decidable : ∀ keyed j, Decidable (Printable keyed j)
  | _, .nil => inferInstanceAs (Decidable True)
  | keyed, .node item child next =>
      have := Printable.decidable true child
      have := Printable.decidable false child
      have := Printable.decidable keyed next
      inferInstanceAs (Decidable (item.type ≠ .null ∧ (keyed = true → ∃ key ∈ item.string, 0 ∉ key)
        ∧ (item.type = .string → ∃ str ∈ item.valuestring, 0 ∉ str)
        ∧ (item.type = .object → Printable true child)
        ∧ (item.type = .array → Printable false child) ∧ Printable keyed next))

/-! ## Strings in quotes -/

theorem cString_of_notMem {str : Text} (h : 0 ∉ str) : cString str = str := by
  apply List.takeWhile_eq_self_iff.mpr
  intro c hc
  have hne : c ≠ 0 := by
    intro hzero
    exact h (hzero ▸ hc)
  simpa using hne

/-- The copying loop is the quotation of the shell. -/
theorem addJsonString_eq (str : Text) : addJsonString str = Shell.enquote str := by
  fun_induction addJsonString str with
  | case1 str h =>
      have hnone : Shell.quote ∉ str := by
        intro hmem
        have hall := List.dropWhile_eq_nil_iff.mp h _ hmem
        simp at hall
      exact (Shell.enquote_of_notMem hnone).symm
  | case2 str c rest h ih =>
      have hc : c = Shell.quote := by
        have hhead := List.head?_dropWhile_not (· ≠ Shell.quote) str
        rw [h] at hhead
        simpa using hhead
      have hfront : Shell.quote ∉ str.takeWhile (· ≠ Shell.quote) := by
        intro hmem
        simpa using List.mem_takeWhile_imp hmem
      subst hc
      have hsplit := List.takeWhile_append_dropWhile (p := (· ≠ Shell.quote)) (l := str)
      rw [h] at hsplit
      calc str.takeWhile (· ≠ Shell.quote) ++ [39, 92, 39, 39] ++ addJsonString rest
          = str.takeWhile (· ≠ Shell.quote) ++ [39, 92, 39, 39] ++ Shell.enquote rest := by rw [ih]
        _ = Shell.enquote (str.takeWhile (· ≠ Shell.quote)) ++ Shell.enquote (Shell.quote :: rest) := by
            rw [Shell.enquote_of_notMem hfront, List.append_assoc]
            rfl
        _ = Shell.enquote str := by
            rw [← Shell.enquote_append, hsplit]

/-! ## Plain words -/

/-- A word that needs no quotes. -/
def PlainWord (w : Text) : Prop := w ≠ [] ∧ ∀ c ∈ w, Shell.IsPlain c

instance (w : Text) : Decidable (PlainWord w) :=
  decidable_of_iff (w ≠ [] ∧ (w.all fun c => Shell.IsPlain c) = true) (by simp [PlainWord])

theorem isPlain_of_isDigit {c : UInt8} (h : Decimal.IsDigit c) : Shell.IsPlain c :=
  .inl (.inl h)

theorem natText_ne_nil (n : Nat) : Decimal.natText n ≠ [] := by
  by_cases h : n = 0
  · rw [h]
    exact List.cons_ne_nil _ _
  · obtain ⟨d, ds, htext, -⟩ := Decimal.natText_of_pos h
    rw [htext]
    exact List.cons_ne_nil d ds

theorem zero_notMem_natText (n : Nat) : 0 ∉ Decimal.natText n := by
  intro h
  have hdigit := Decimal.isDigit_of_mem_natText h
  revert hdigit
  decide

theorem plainWord_natText (n : Nat) : PlainWord (Decimal.natText n) :=
  ⟨natText_ne_nil n, fun _ hc => isPlain_of_isDigit (Decimal.isDigit_of_mem_natText hc)⟩

/-- A plain byte in front of plain bytes. -/
theorem PlainWord.cons {c : UInt8} {w : Text} (hc : Shell.IsPlain c)
    (h : ∀ d ∈ w, Shell.IsPlain d) : PlainWord (c :: w) := by
  refine ⟨List.cons_ne_nil c w, ?_⟩
  intro d hd
  rcases List.mem_cons.mp hd with rfl | hd
  · exact hc
  · exact h d hd

theorem plainWord_intText (k : Int) : PlainWord (Decimal.intText k) := by
  unfold Decimal.intText
  split
  · exact .cons (by decide) (plainWord_natText _).2
  · exact plainWord_natText _

theorem plain_paddedText (width n : Nat) : ∀ c ∈ Decimal.paddedText width n, Shell.IsPlain c := by
  intro c hc
  rcases List.mem_append.mp hc with hc | hc
  · rw [(List.mem_replicate.mp hc).2]
    decide
  · exact (plainWord_natText n).2 c hc

theorem plainWord_fixedText (places : Nat) (q : ℚ) : PlainWord (Decimal.fixedText places q) := by
  unfold Decimal.fixedText
  simp only
  constructor
  · intro hnil
    simp [natText_ne_nil] at hnil
  · intro c hc
    rcases List.mem_append.mp hc with hc | hc
    · rcases List.mem_append.mp hc with hc | hc
      · split at hc
        · rw [List.mem_singleton.mp hc]
          decide
        · cases hc
      · exact (plainWord_natText _).2 c hc
    · split at hc
      · cases hc
      · exact (PlainWord.cons (by decide) (plain_paddedText _ _)).2 c hc

/-- The texts `nan` and `-nan`, of which the C library prints one. -/
def NanPlain (env : Libc) : Prop := env.nanText = [110, 97, 110] ∨ env.nanText = [45, 110, 97, 110]

theorem plainWord_doubleText {env : Libc} (henv : NanPlain env) (d : Binary64.Double) :
    PlainWord (doubleText env d) := by
  have hwords : PlainWord [45, 105, 110, 102] ∧ PlainWord [105, 110, 102]
      ∧ PlainWord [110, 97, 110] ∧ PlainWord [45, 110, 97, 110] := by decide
  cases d with
  | finite q => exact plainWord_fixedText 6 q
  | inf negative =>
      cases negative with
      | false => exact hwords.2.1
      | true => exact hwords.1
  | nan =>
      rcases henv with h | h
      · rw [doubleText, h]
        exact hwords.2.2.1
      · rw [doubleText, h]
        exact hwords.2.2.2

/-- A key has no quote in it. -/
theorem quote_notMem_writeKeyString (key : Text) : Shell.quote ∉ writeKeyString key := by
  intro hmem
  obtain ⟨c, -, hc⟩ := List.mem_map.mp hmem
  split at hc
  · next h =>
      subst hc
      revert h
      decide
  · revert hc
    decide

/-- The index of an array element is printed as it is. -/
theorem writeKeyString_natText (n : Nat) :
    writeKeyString (Decimal.natText n) = Decimal.natText n := by
  have hkeep : ∀ c ∈ Decimal.natText n, (if Shell.IsAlnum c then c else 95) = c := by
    intro c hc
    exact if_pos (.inl (Decimal.isDigit_of_mem_natText hc))
  rw [writeKeyString, List.map_congr_left hkeep, List.map_id']

/-! ## Lines -/

open Shell (Reads)

/-- No command of the text is a reserved word. -/
theorem jsonAdd_notMem_reserved (type : Text) : jsonAdd ++ type ∉ Shell.reserved := by
  simp [jsonAdd, Shell.reserved]

/-- The end of a line behind the words of a command. -/
theorem reads_endLine {name : Shell.Word} {args : List Shell.Word} (r : Shell.Reader)
    (hbare : r.quoting = .bare) (hwords : r.allWords = name :: args)
    (hname : name ∉ Shell.reserved) :
    Reads r endLine .start [name :: args] :=
  .cons (Shell.step_semicolon r hbare hwords hname) (.byte Shell.step_newline (.nil _))

/-- A command without arguments on a line of its own. -/
theorem reads_name {name : Shell.Word} (h : PlainWord name) (hname : name ∉ Shell.reserved) :
    Reads .start (name ++ endLine) .start [[name]] :=
  (Reads.bare [] h.1 h.2).append (reads_endLine (Shell.within [] name) rfl rfl hname)

/-- The first line. -/
theorem reads_jsonInit : Reads .start (jsonInit ++ endLine) .start [[jsonInit]] :=
  reads_name (by decide) (by decide)

/-- The name and the key of an element. -/
theorem reads_opening {type : Text} (h : ∀ c ∈ type, Shell.IsPlain c) (key : Text) :
    Reads .start (jsonAdd ++ type ++ [32, 39] ++ writeKeyString key ++ [39])
      (Shell.within [jsonAdd ++ type] (writeKeyString key)) [] := by
  have hplain : ∀ c ∈ jsonAdd ++ type, Shell.IsPlain c := by
    intro c hc
    rcases List.mem_append.mp hc with hc | hc
    · have hadd : PlainWord jsonAdd := by decide
      exact hadd.2 c hc
    · exact h c hc
  have hne : jsonAdd ++ type ≠ [] := by simp [jsonAdd]
  have hname := Reads.bare [] hne hplain
  have hkey := Reads.quoted [jsonAdd ++ type] (writeKeyString key)
  rw [Shell.enquote_of_notMem (quote_notMem_writeKeyString key)] at hkey
  have hboth := hname.append (.byte (Shell.step_space [] (jsonAdd ++ type)) hkey)
  rw [List.append_assoc _ [32, 39], List.append_assoc]
  exact hboth

/-- The words that `typeName` gives. -/
def typeNames : List Text :=
  [[111, 98, 106, 101, 99, 116], [97, 114, 114, 97, 121], [115, 116, 114, 105, 110, 103],
    [98, 111, 111, 108, 101, 97, 110], [100, 111, 117, 98, 108, 101], [105, 110, 116]]

theorem typeName_mem {item : Item} {type : Text} (h : typeName item = some type) :
    type ∈ typeNames := by
  unfold typeName at h
  split at h <;> grind [typeNames]

/-- The letters of a type name. -/
theorem plain_typeName {item : Item} {type : Text} (h : typeName item = some type) :
    ∀ c ∈ type, Shell.IsPlain c := by
  have hall : ∀ t ∈ typeNames, PlainWord t := by decide
  exact (hall type (typeName_mem h)).2

/-- What stands behind the key ends the command, and a container is followed by
its contents. -/
theorem reads_elementTail {env : Libc} (henv : NanPlain env) {item : Item}
    {members elements : Option Printed} {ms es : List Shell.Command}
    (hnull : item.type ≠ .null)
    (hstr : item.type = .string → ∃ str ∈ item.valuestring, 0 ∉ str)
    (hobject : item.type = .object →
      ∃ p, members = some p ∧ Reads .start p.1 .start ms)
    (harray : item.type = .array → ∃ p, elements = some p ∧ Reads .start p.1 .start es)
    {name : Shell.Word} (hname : name ∉ Shell.reserved) (key : Shell.Word) :
    ∃ rest, elementTail env item members elements = some (39 :: rest, 0) ∧
      Reads (Shell.within [name] key) rest .start
        ((name :: key :: valueWords env item) :: contents item ms es) := by
  have hspace := Shell.step_space [name] key
  -- a plain value, with or without a blank behind it
  have hword : ∀ w, PlainWord w →
      Reads (Shell.within [name] key) (32 :: w) (Shell.within [name, key] w) [] := by
    intro w hw
    exact .byte hspace (Reads.bare [name, key] hw.1 hw.2)
  have hend : ∀ w, Reads (Shell.within [name, key] w) endLine .start [[name, key, w]] :=
    fun w => reads_endLine _ rfl rfl hname
  have hopen : Reads (Shell.within [name] key) endLine .start [[name, key]] :=
    reads_endLine _ rfl rfl hname
  cases htype : item.type with
  | null => exact absurd htype hnull
  | object =>
      obtain ⟨p, rfl, hp⟩ := hobject htype
      have hclose := @reads_name jsonCloseObject (by decide) (by decide)
      refine ⟨endLine ++ p.1 ++ (jsonCloseObject ++ endLine), ?_, ?_⟩
      · simp [elementTail, htype]
      · simpa [valueWords, contents, htype] using (hopen.append hp).append hclose
  | array =>
      obtain ⟨p, rfl, hp⟩ := harray htype
      have hclose := @reads_name jsonCloseArray (by decide) (by decide)
      refine ⟨endLine ++ p.1 ++ (jsonCloseArray ++ endLine), ?_, ?_⟩
      · simp [elementTail, htype]
      · simpa [valueWords, contents, htype] using (hopen.append hp).append hclose
  | string =>
      obtain ⟨str, hmem, hzero⟩ := hstr htype
      have hvalue : item.valuestring = some str := hmem
      have hquoted := Reads.byte hspace (Reads.quoted [name, key] str)
      refine ⟨32 :: (Shell.quote :: Shell.enquote str ++ [Shell.quote]) ++ endLine, ?_, ?_⟩
      · simp [elementTail, htype, hvalue, addJsonString_eq, cString_of_notMem hzero]
      · have hline := hquoted.append (hend str)
        simpa [valueWords, contents, htype, hvalue] using hline
  | true =>
      refine ⟨32 :: [49] ++ endLine, ?_, ?_⟩
      · simp [elementTail, htype]
      · have hline := (hword [49] (by decide)).append (hend [49])
        simpa [valueWords, contents, htype] using hline
  | false =>
      refine ⟨32 :: [48] ++ endLine, ?_, ?_⟩
      · simp [elementTail, htype]
      · have hline := (hword [48] (by decide)).append (hend [48])
        simpa [valueWords, contents, htype] using hline
  | number =>
      by_cases hdouble : jsonTypeIsDouble item ≠ 0
      · refine ⟨32 :: doubleText env item.valuedouble ++ endLine, ?_, ?_⟩
        · simp [elementTail, htype, hdouble]
        · have hline := (hword _ (plainWord_doubleText henv item.valuedouble)).append (hend _)
          simpa [valueWords, contents, htype, hdouble] using hline
      · refine ⟨32 :: Decimal.intText item.valueint ++ (32 :: endLine), ?_, ?_⟩
        · simp [elementTail, htype, hdouble]
        · have hblank : Reads (Shell.within [name, key] (Decimal.intText item.valueint))
              (32 :: endLine) .start [[name, key, Decimal.intText item.valueint]] :=
            .byte (Shell.step_space _ _) (reads_endLine _ rfl rfl hname)
          have hline := (hword _ (plainWord_intText item.valueint)).append hblank
          simpa [valueWords, contents, htype, hdouble] using hline

/-- One element is printed as its command and its contents. -/
theorem reads_element {env : Libc} (henv : NanPlain env) {key : Text} (hkey : 0 ∉ key)
    {item : Item} {members elements : Option Printed} {ms es : List Shell.Command}
    (hnull : item.type ≠ .null)
    (hstr : item.type = .string → ∃ str ∈ item.valuestring, 0 ∉ str)
    (hobject : item.type = .object →
      ∃ p, members = some p ∧ Reads .start p.1 .start ms)
    (harray : item.type = .array → ∃ p, elements = some p ∧ Reads .start p.1 .start es) :
    ∃ text, addJsonElement env (some key) item members elements = some (text, 0) ∧
      Reads .start text .start
        (((jsonAdd ++ (typeName item).getD []) :: writeKeyString key :: valueWords env item)
          :: contents item ms es) := by
  obtain ⟨type, htype⟩ : ∃ type, typeName item = some type := by
    apply Option.isSome_iff_exists.mp
    unfold typeName
    split <;> grind
  have hopening := reads_opening (plain_typeName htype) key
  obtain ⟨rest, htail, hrest⟩ := reads_elementTail henv hnull hstr hobject harray
    (jsonAdd_notMem_reserved type) (writeKeyString key)
  refine ⟨jsonAdd ++ type ++ [32, 39] ++ writeKeyString key ++ 39 :: rest, ?_, ?_⟩
  · simp [addJsonElement, htype, htail, cString_of_notMem hkey]
  · have hline := hopening.append hrest
    rw [htype]
    simpa using hline

/-- **A chain is printed as its commands**, by induction over the tree. -/
theorem reads_script {env : Libc} (henv : NanPlain env) (j : Json) :
    (Printable true j → ∃ text, addJsonObject env j = some (text, 0) ∧
      Reads .start text .start (script env none j)) ∧
    (Printable false j → ∀ i, ∃ text, addJsonArray env i j = some (text, 0) ∧
      Reads .start text .start (script env (some i) j)) := by
  induction j with
  | nil => exact ⟨fun _ => ⟨[], rfl, .nil _⟩, fun _ i => ⟨[], rfl, .nil _⟩⟩
  | node item child next ihchild ihnext =>
      have hmembers : Printable true child → ∃ p, addJsonObject env child = some p ∧
          Reads .start p.1 .start (script env none child) := by
        intro h
        obtain ⟨text, htext, hreads⟩ := ihchild.1 h
        exact ⟨_, htext, hreads⟩
      have helements : Printable false child → ∃ p, addJsonArray env 0 child = some p ∧
          Reads .start p.1 .start (script env (some 0) child) := by
        intro h
        obtain ⟨text, htext, hreads⟩ := ihchild.2 h 0
        exact ⟨_, htext, hreads⟩
      constructor
      · intro ⟨hnull, hkey, hstr, hobject, harray, hnext⟩
        obtain ⟨key, hmem, hzero⟩ := hkey rfl
        have hstring : item.string = some key := hmem
        obtain ⟨text, htext, hreads⟩ := reads_element henv hzero hnull hstr
          (fun h => hmembers (hobject h)) (fun h => helements (harray h))
        obtain ⟨rest, hrest, hreads'⟩ := ihnext.1 hnext
        refine ⟨text ++ rest, ?_, ?_⟩
        · simp [addJsonObject, hstring, htext, hrest]
        · simpa [script, hstring] using hreads.append hreads'
      · intro ⟨hnull, _, hstr, hobject, harray, hnext⟩ i
        obtain ⟨text, htext, hreads⟩ := reads_element henv (zero_notMem_natText i) hnull hstr
          (fun h => hmembers (hobject h)) (fun h => helements (harray h))
        obtain ⟨rest, hrest, hreads'⟩ := ihnext.2 hnext (i + 1)
        refine ⟨text ++ rest, ?_, ?_⟩
        · simp [addJsonArray, htext, hrest]
        · simpa [script, writeKeyString_natText] using hreads.append hreads'

/-! ## The whole text -/

/-- **The shell reads the text of an object as its commands** and as nothing
else. -/
theorem jshnParse_commands {env : Libc} (henv : NanPlain env) {str rest : Text} {item : Item}
    {child next : Json} (hparse : jsonParse env str = .ok (.node item child next) rest)
    (hobject : item.type = .object) (hprint : Printable true child) :
    ∃ text, jshnParse env str = some (text, 0) ∧
      Shell.commands text = some ([jsonInit] :: script env none child) := by
  obtain ⟨text, htext, hreads⟩ := (reads_script henv child).1 hprint
  refine ⟨jsonInit ++ endLine ++ text, ?_, ?_⟩
  · simp [jshnParse, hparse, hobject, htext]
  · exact (reads_jsonInit.append hreads).commands

/-- A string with a quote and an expansion in it, and an array. -/
theorem jshnParse_commands_quotes :
    ∃ text, jshnParse default [123, 34, 107, 39, 34, 58, 34, 97, 39, 98, 59, 36, 40, 120, 41, 34,
        44, 34, 108, 34, 58, 91, 116, 114, 117, 101, 93, 125, 0] = some (text, 0) ∧
      Shell.commands text = some
        [[jsonInit], [jsonAdd ++ [115, 116, 114, 105, 110, 103], [107, 95],
            [97, 39, 98, 59, 36, 40, 120, 41]],
          [jsonAdd ++ [97, 114, 114, 97, 121], [108]],
          [jsonAdd ++ [98, 111, 111, 108, 101, 97, 110], [48], [49]], [jsonCloseArray]] :=
  have hparse : jsonParse default [123, 34, 107, 39, 34, 58, 34, 97, 39, 98, 59, 36, 40, 120, 41,
      34, 44, 34, 108, 34, 58, 91, 116, 114, 117, 101, 93, 125, 0]
      = .ok (.node { newItem with type := .object }
          (.node { newItem with
                    type := .string
                    valuestring := some [97, 39, 98, 59, 36, 40, 120, 41]
                    string := some [107, 39] } .nil
            (.node { newItem with type := .array, string := some [108] }
              (.node { newItem with type := .true, valueint := 1 } .nil .nil) .nil)) .nil) [0] := by
    rfl
  jshnParse_commands (.inl rfl) hparse rfl (by decide)

end Jshn

end Libubox
