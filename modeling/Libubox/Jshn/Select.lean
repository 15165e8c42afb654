import Libubox.Jshn.Chart
import Libubox.Jshn.Dump

/-!
# Reading a document in the shell

The other half of `jshn.sh`: `json_select` goes into a container, out of it or back to the
root, and `json_get_type`, `json_get_var` and `json_get_keys` read the table it is at.  On
a document that was loaded they do what the same steps do on the tree, and find a member
exactly if the tree has it (`json_load_select`).
-/

namespace Libubox.Jshn

open Decimal Json Shell Vars

/-! ## The source -/

section Functions

variable (pre : Word)

/-- `json_get_type`: the type, and whether there is one. -/
def jsonGetType (name : Word) (vars : Vars Word) : Word × Bool :=
  let var := pre ++ (typeOf ++ (vars.expand (pre ++ jsonCur) ++ 95 :: substituted name))
  (vars.expand var, (vars var).isSome)

/-- `json_get_var`, which gives the default for an empty value too. -/
def jsonGetVar (name : Word) (default : Option Word) (vars : Vars Word) : Word × Bool :=
  let var := pre ++ (vars.expand (pre ++ jsonCur) ++ 95 :: substituted name)
  (if vars.expand var = [] then default.getD [] else vars.expand var,
    (vars var).isSome || default.isSome)

/-- `json_get_keys`. -/
def jsonGetKeys (name : Word) (vars : Vars Word) : Word × Bool :=
  let table := if name = [] then vars.expand (pre ++ jsonCur) else (jsonGetVar pre name none vars).1
  (vars.expand (pre ++ (keysOf ++ table)), (vars (pre ++ (keysOf ++ table))).isSome)

/-- `json_select`: the variables, and what it returns. -/
def jsonSelect (target : Word) (vars : Vars Word) : Vars Word × Bool :=
  if target = [] then (vars.assign (pre ++ jsonCur) jV, true)
  else if target = [46, 46] then
    let cur := vars.expand (pre ++ jsonCur)
    (vars.assign (pre ++ jsonCur) (vars.expand (pre ++ (upOf ++ cur))), true)
  else
    let type := (jsonGetType pre target vars).1
    if type = objectType ∨ type = arrayType then
      (vars.assign (pre ++ jsonCur) (jsonGetVar pre target none vars).1, true)
    else (vars, false)

/-- `__jshn_raw_append`, with a space. -/
def jshnRawAppend (dest value : Word) : Word :=
  if dest = [] then value else dest ++ (if value = [] then [] else [32]) ++ value

/-- The loop of `json_get_values` over the keys of the current table. -/
def currentValues (vars : Vars Word) : Word :=
  (tokens isIfs (jsonGetKeys pre [] vars).1).foldl
    (fun dest key => jshnRawAppend dest (jsonGetVar pre key none vars).1) []

/-- `json_get_values`: the values, the variables and what it returns. -/
def jsonGetValues (name : Word) (vars : Vars Word) : Word × Vars Word × Bool :=
  if name = [] then (currentValues pre vars, vars, true)
  else
    let p := jsonSelect pre name vars
    if p.2 then (currentValues pre p.1, (jsonSelect pre [46, 46] p.1).1, true)
    else ([], p.1, false)

/-- One `json_select` after another. -/
def jsonSelects : List Word → Vars Word → Vars Word × List Bool
  | [], vars => (vars, [])
  | target :: targets, vars =>
      let p := jsonSelect pre target vars
      let q := jsonSelects targets p.1
      (q.1, p.2 :: q.2)

end Functions

/-! ## The same on the tree -/

/-- A member of a chain, with what is below it. -/
def findMember : Option Nat → Json → Word → Option (Item × Json)
  | _, .nil, _ => none
  | count, .node item child next, v =>
      if memberKey count item = v then some (item, child)
      else findMember (count.map (· + 1)) next v

/-- How the members of a container are counted. -/
def innerCount : JsonType → Option (Option Nat)
  | .object => some none
  | .array => some (some 0)
  | _ => none

/-- The chain that is looked at, in front of those around it. -/
abbrev Place : Type := List (Option Nat × Json)

/-- The chain below a member. -/
def enterMember (count : Option Nat) (chain : Json) (v : Word) : Option (Option Nat × Json) :=
  (findMember count chain v).bind fun m => (innerCount m.1.type).map fun inner => (inner, m.2)

/-- A step to the root, out, or in; outside of the root there is nothing to go into. -/
def move (root : Json) (target : Word) (place : Place) : Option (Place × Bool) :=
  if target = [] then some ([(none, root)], true)
  else if target = [46, 46] then some (place.tail, true)
  else
    match place with
    | [] => none
    | (count, chain) :: above =>
        match enterMember count chain (substituted target) with
        | some below => some (below :: (count, chain) :: above, true)
        | none => some ((count, chain) :: above, false)

/-- One step after another. -/
def moves (root : Json) : List Word → Place → Option (Place × List Bool)
  | [], place => some (place, [])
  | target :: targets, place =>
      (move root target place).bind fun p =>
        (moves root targets p.1).map fun q => (q.1, p.2 :: q.2)

/-! ## Members -/

section Members

variable {env : Libc} {s : Store} {t : Table} {count : Option Nat} {n : Nat} {chain child : Json}
  {item : Item} {v : Word}

theorem innerCount_eq_none {type : JsonType} :
    innerCount type = none ↔ type ≠ .object ∧ type ≠ .array := by
  cases type <;> simp [innerCount]

theorem findMember_node {next : Json} :
    findMember count (.node item child next) v
      = if memberKey count item = v then some (item, child)
        else findMember (count.map (· + 1)) next v := rfl

theorem findMember_none : findMember count chain v = none ↔ v ∉ memberNames count chain := by
  induction chain generalizing count with
  | nil => exact iff_of_true rfl List.not_mem_nil
  | node item child next _ ihnext =>
      rw [findMember_node, memberNames, List.mem_cons, not_or]
      by_cases hkey : memberKey count item = v
      · rw [if_pos hkey]
        exact iff_of_false (Option.some_ne_none _) fun h => h.1 hkey.symm
      · rw [if_neg hkey, ihnext]
        exact ⟨fun h => ⟨fun heq => hkey heq.symm, h⟩, And.right⟩

theorem Loadable.find (h : Loadable count.isNone chain)
    (hfind : findMember count chain v = some (item, child)) :
    (item.type = .object → Loadable true child) ∧ (item.type = .array → Loadable false child) := by
  induction chain generalizing count with
  | nil => cases hfind
  | node item' child' next _ ihnext =>
      obtain ⟨-, -, -, -, hobject, harray, hnext⟩ := h
      rw [findMember_node] at hfind
      split at hfind
      · cases hfind
        exact ⟨hobject, harray⟩
      · exact ihnext (by rwa [Option.isNone_map]) hfind

/-- What is stored of one member. -/
theorem Stored.find (h : Stored env s t count n chain)
    (hfind : findMember count chain v = some (item, child)) :
    ∃ m, StoredMember env s t v m item ∧
      (item.type = .object →
        s (.keys (.object (m + 1))) = some ⟨listing (memberNames none child), true⟩ ∧
          Stored env s (.object (m + 1)) none (m + 1) child) ∧
      (item.type = .array →
        s (.keys (.array (m + 1))) = some ⟨listing (memberNames (some 0) child), true⟩ ∧
          Stored env s (.array (m + 1)) (some 0) (m + 1) child) := by
  induction chain generalizing count n with
  | nil => cases hfind
  | node item' child' next _ ihnext =>
      obtain ⟨hmember, hobject, harray, hnext⟩ := h
      rw [findMember_node] at hfind
      split at hfind
      · rename_i hkey
        cases hfind
        rw [hkey] at hmember
        exact ⟨n, hmember, hobject, harray⟩
      · exact ihnext hnext hfind

/-- A name that the table does not list is not set. -/
theorem Charted.absent {m : Nat} (h : Charted s m) (ht : t ≠ .outside)
    (hload : Loadable count.isNone chain)
    (hkeys : s (.keys t) = some ⟨listing (memberNames count chain), true⟩)
    (hfind : findMember count chain v = none) : s (.value t v) = none ∧ s (.type t v) = none := by
  obtain ⟨ks, hks, hnames, hnone⟩ := h.listed t ht
  have hspace : ∀ w ∈ ks, 32 ∉ w := fun w hw hmem => Bool.noConfusion (hnames w hw 32 hmem)
  have hspace' : ∀ w ∈ memberNames count chain, 32 ∉ w :=
    fun w hw hmem => of_decide_eq_false ((memberNames_words hload w hw).2 32 hmem) rfl
  rw [expand_of_eq hkeys] at hks
  rw [← listing_injective hspace' hspace hks] at hnone
  exact hnone v (findMember_none.mp hfind)

end Members

/-! ## Places -/

/-- The chains of a place are those of a table and of the tables around it. -/
def Along (env : Libc) (s : Store) : Table → Place → Prop
  | t, [] => t = .outside
  | t, (count, chain) :: above =>
      t ≠ .outside ∧ Loadable count.isNone chain ∧ (∃ n, Stored env s t count n chain) ∧
        s (.keys t) = some ⟨listing (memberNames count chain), true⟩ ∧
        ∃ u, s.expand (.up t) = u.name ∧ Along env s u above

/-- The current table is that of a place; other variables are as in `s`. -/
structure Stands (env : Libc) (pre : Word) (s : Store) (vars : Vars Word) (t : Table)
    (place : Place) : Prop where
  cur : (store pre vars).expand .cur = t.name
  same : ∀ i, i ≠ .cur → store pre vars i = s i
  along : Along env s t place

section Places

variable {env : Libc} {pre : Word} {s : Store} {vars : Vars Word} {t : Table} {place : Place}
  {n : Nat} {root : Json}

/-- Around the outermost table there is none. -/
theorem Along.out (h : Along env s t place) (hchart : Charted s n) :
    ∃ u, s.expand (.up t) = u.name ∧ Along env s u place.tail := by
  cases place with
  | nil =>
      have hout : t = .outside := h
      subst hout
      exact ⟨.outside, expand_of_none (hchart.ends .outside rfl), rfl⟩
  | cons p above => exact h.2.2.2.2

/-- Another table becomes current. -/
theorem Stands.assign (h : Stands env pre s vars t place) {u : Table} {place' : Place}
    (hu : Along env s u place') :
    Stands env pre s (vars.assign (pre ++ jsonCur) u.name) u place' := by
  have hstore : store pre (vars.assign (pre ++ jsonCur) u.name)
      = (store pre vars).assign .cur u.name := store_assign .cur u.name
  refine ⟨?_, fun i hi => ?_, hu⟩
  · rw [hstore]
    exact expand_of_eq assign_self
  · rw [hstore, assign_of_ne hi]
    exact h.same i hi

theorem Stands.getType (h : Stands env pre s vars t place) (name : Word) :
    jsonGetType pre name vars
      = (s.expand (.type t (substituted name)), (s (.type t (substituted name))).isSome) := by
  have hcur : vars.expand (pre ++ jsonCur) = t.name := h.cur
  have hsame := h.same (.type t (substituted name)) (by simp)
  rw [← expand_congr hsame, ← hsame, jsonGetType, hcur]
  rfl

theorem Stands.getVar (h : Stands env pre s vars t place) (name : Word) (default : Option Word) :
    jsonGetVar pre name default vars
      = (if s.expand (.value t (substituted name)) = [] then default.getD []
          else s.expand (.value t (substituted name)),
        (s (.value t (substituted name))).isSome || default.isSome) := by
  have hcur : vars.expand (pre ++ jsonCur) = t.name := h.cur
  have hsame := h.same (.value t (substituted name)) (by simp)
  rw [← expand_congr hsame, ← hsame, jsonGetVar, hcur]
  rfl

theorem isContainer_typeName {item : Item} {inner : Option Nat}
    (h : innerCount item.type = some inner) : IsContainer ((typeName item).getD []) := by
  unfold typeName
  cases htype : item.type
  case object => exact .inl rfl
  case array => exact .inr rfl
  all_goals
    rw [htype] at h
    cases h

theorem not_isContainer_typeName {item : Item} (h : innerCount item.type = none) :
    ¬IsContainer ((typeName item).getD []) := by
  obtain ⟨hobject, harray⟩ := innerCount_eq_none.mp h
  unfold typeName
  cases htype : item.type
  case object => exact absurd htype hobject
  case array => exact absurd htype harray
  case null => exact not_isContainer_nil
  case number =>
    by_cases hdouble : jsonTypeIsDouble item ≠ 0
    · simp only [if_pos hdouble]
      exact not_isContainer_scalar (List.mem_of_elem_eq_true rfl)
    · simp only [if_neg hdouble]
      exact not_isContainer_scalar (List.mem_of_elem_eq_true rfl)
  all_goals exact not_isContainer_scalar (List.mem_of_elem_eq_true rfl)

/-- A container leads to its table. -/
theorem Along.enter {count inner : Option Nat} {chain child : Json} {above : Place} {v : Word}
    (h : Along env s t ((count, chain) :: above)) (hchart : Charted s n)
    (henter : enterMember count chain v = some (inner, child)) :
    IsContainer (s.expand (.type t v)) ∧ ∃ u, s.expand (.value t v) = u.name ∧
      s.expand (.up u) = t.name ∧ Along env s u ((inner, child) :: (count, chain) :: above) := by
  obtain ⟨⟨item, child'⟩, hfind, hinner⟩ := Option.bind_eq_some_iff.mp henter
  obtain ⟨inner', hcount, heq⟩ := Option.map_eq_some_iff.mp hinner
  cases heq
  have hplace := h
  obtain ⟨hout, hload, ⟨m, hstored⟩, -, -⟩ := h
  obtain ⟨hloadObject, hloadArray⟩ := hload.find hfind
  obtain ⟨k, ⟨htype, hvalue, -⟩, hobject, harray⟩ := hstored.find hfind
  have hcontainer : IsContainer (s.expand (.type t v)) := by
    rw [expand_of_eq htype]
    exact isContainer_typeName hcount
  obtain ⟨u, -, hval, hup⟩ := hchart.nested t v hout hcontainer
  refine ⟨hcontainer, u, hval, hup, ?_⟩
  rw [expand_of_eq hvalue] at hval
  cases hitem : item.type
  case object =>
    rw [hitem] at hcount
    cases hcount
    have hu : Table.object (k + 1) = u := by
      rw [valueWord, hitem] at hval
      exact Table.name_injective hval
    subst hu
    exact ⟨Table.noConfusion, hloadObject hitem, ⟨_, (hobject hitem).2⟩, (hobject hitem).1,
      t, hup, hplace⟩
  case array =>
    rw [hitem] at hcount
    cases hcount
    have hu : Table.array (k + 1) = u := by
      rw [valueWord, hitem] at hval
      exact Table.name_injective hval
    subst hu
    exact ⟨Table.noConfusion, hloadArray hitem, ⟨_, (harray hitem).2⟩, (harray hitem).1,
      t, hup, hplace⟩
  all_goals
    rw [hitem] at hcount
    cases hcount

/-- Nothing else is a container. -/
theorem Along.stay {count : Option Nat} {chain : Json} {above : Place} {v : Word}
    (h : Along env s t ((count, chain) :: above)) (hchart : Charted s n)
    (henter : enterMember count chain v = none) : ¬IsContainer (s.expand (.type t v)) := by
  obtain ⟨hout, hload, ⟨m, hstored⟩, hkeys, -⟩ := h
  cases hfind : findMember count chain v with
  | none =>
      rw [expand_of_none (hchart.absent hout hload hkeys hfind).2]
      exact not_isContainer_nil
  | some p =>
      obtain ⟨k, ⟨htype, -, -⟩, -, -⟩ := hstored.find hfind
      rw [enterMember, hfind, Option.bind_some, Option.map_eq_none_iff] at henter
      rw [expand_of_eq htype]
      exact not_isContainer_typeName henter

/-- Nothing is selected. -/
theorem Stands.select_stay {count : Option Nat} {chain : Json} {above : Place}
    (h : Stands env pre s vars t ((count, chain) :: above)) (hchart : Charted s n) {target : Word}
    (hempty : target ≠ []) (hdots : target ≠ [46, 46])
    (henter : enterMember count chain (substituted target) = none) :
    jsonSelect pre target vars = (vars, false) := by
  have hstay : ¬(s.expand (.type t (substituted target)) = objectType ∨
      s.expand (.type t (substituted target)) = arrayType) := h.along.stay hchart henter
  rw [jsonSelect, if_neg hempty, if_neg hdots, h.getType]
  exact if_neg hstay

/-- The table of a container becomes current. -/
theorem Stands.select_enter {count : Option Nat} {chain : Json} {above : Place}
    {below : Option Nat × Json} (h : Stands env pre s vars t ((count, chain) :: above))
    (hchart : Charted s n) {target : Word} (hempty : target ≠ []) (hdots : target ≠ [46, 46])
    (henter : enterMember count chain (substituted target) = some below) :
    ∃ u, jsonSelect pre target vars = (vars.assign (pre ++ jsonCur) u.name, true) ∧
      s.expand (.up u) = t.name ∧ Along env s u (below :: (count, chain) :: above) := by
  obtain ⟨hcontainer, u, hvalue, hup, hu⟩ := h.along.enter hchart henter
  have hopens : s.expand (.type t (substituted target)) = objectType ∨
      s.expand (.type t (substituted target)) = arrayType := hcontainer
  have hdefault : (if s.expand (.value t (substituted target)) = [] then
      (none : Option Word).getD [] else s.expand (.value t (substituted target))) = u.name := by
    split
    · rename_i hnil
      rw [← hvalue, hnil]
      rfl
    · exact hvalue
  refine ⟨u, ?_, hup, hu⟩
  rw [jsonSelect, if_neg hempty, if_neg hdots, h.getType, h.getVar, hdefault]
  exact if_pos hopens

/-- The table around the current one becomes current. -/
theorem Stands.select_out (h : Stands env pre s vars t place) {u : Table}
    (hup : s.expand (.up t) = u.name) :
    jsonSelect pre [46, 46] vars = (vars.assign (pre ++ jsonCur) u.name, true) := by
  have hcur : vars.expand (pre ++ jsonCur) = t.name := h.cur
  have hname : vars.expand (pre ++ (upOf ++ t.name)) = u.name :=
    (expand_congr (h.same (.up t) (by simp))).trans hup
  rw [jsonSelect, if_neg (List.cons_ne_nil _ _), if_pos rfl, hcur, ← hname]

/-- `json_select` is a step on the tree. -/
theorem Stands.select (h : Stands env pre s vars t place) (hchart : Charted s n)
    (hroot : Along env s .root [(none, root)]) {target : Word} {place' : Place} {answer : Bool}
    (hmove : move root target place = some (place', answer)) :
    (jsonSelect pre target vars).2 = answer ∧
      ∃ u, Stands env pre s (jsonSelect pre target vars).1 u place' := by
  unfold move at hmove
  by_cases hempty : target = []
  · rw [if_pos hempty] at hmove
    cases hmove
    rw [jsonSelect, if_pos hempty]
    exact ⟨rfl, .root, h.assign hroot⟩
  rw [if_neg hempty] at hmove
  by_cases hdots : target = [46, 46]
  · rw [if_pos hdots] at hmove
    cases hmove
    obtain ⟨u, hup, hu⟩ := h.along.out hchart
    rw [hdots, h.select_out hup]
    exact ⟨rfl, u, h.assign hu⟩
  rw [if_neg hdots] at hmove
  cases place with
  | nil => cases hmove
  | cons p above =>
      obtain ⟨count, chain⟩ := p
      cases henter : enterMember count chain (substituted target) with
      | none =>
          simp only [henter] at hmove
          cases hmove
          rw [h.select_stay hchart hempty hdots henter]
          exact ⟨rfl, t, h⟩
      | some below =>
          simp only [henter] at hmove
          cases hmove
          obtain ⟨u, hselect, -, hu⟩ := h.select_enter hchart hempty hdots henter
          rw [hselect]
          exact ⟨rfl, u, h.assign hu⟩

/-- A run of steps, by induction over them. -/
theorem Stands.selects (hchart : Charted s n) (hroot : Along env s .root [(none, root)])
    {targets : List Word} : ∀ {vars : Vars Word} {t : Table} {place place' : Place}
    {answers : List Bool}, Stands env pre s vars t place →
      moves root targets place = some (place', answers) →
      (jsonSelects pre targets vars).2 = answers ∧
        ∃ u, Stands env pre s (jsonSelects pre targets vars).1 u place' := by
  induction targets with
  | nil =>
      intro vars t place place' answers h hmoves
      cases hmoves
      exact ⟨rfl, t, h⟩
  | cons target targets ih =>
      intro vars t place place' answers h hmoves
      obtain ⟨⟨place₁, answer⟩, hmove, hrest⟩ := Option.bind_eq_some_iff.mp hmoves
      obtain ⟨⟨place₂, answers'⟩, hmoves', heq⟩ := Option.map_eq_some_iff.mp hrest
      cases heq
      obtain ⟨hanswer, u, hu⟩ := h.select hchart hroot hmove
      obtain ⟨hanswers, hplace⟩ := ih hu hmoves'
      rw [jsonSelects]
      exact ⟨by rw [hanswer, hanswers], hplace⟩

end Places

/-! ## Reading -/

/-- What is read of a name: nothing, or the type of a member and the value of a scalar. -/
def Answers (env : Libc) (pre : Word) (vars : Vars Word) (name : Word) :
    Option (Item × Json) → Prop
  | none => jsonGetType pre name vars = ([], false) ∧
      ∀ default, jsonGetVar pre name default vars = (default.getD [], default.isSome)
  | some (item, _) => jsonGetType pre name vars = ((typeName item).getD [], true) ∧
      (innerCount item.type = none → ∀ default, jsonGetVar pre name default vars
        = (if valueWord env 0 item = [] then default.getD [] else valueWord env 0 item, true))

section Reading

variable {env : Libc} {pre : Word} {s : Store} {vars start : Vars Word} {t : Table} {n : Nat}
  {count : Option Nat} {chain child next : Json} {above : Place} {history : List Call}
  {str rest : Text} {item : Item}

/-- The value of a scalar does not name a table. -/
theorem valueWord_scalar (h : innerCount item.type = none) (m : Nat) :
    valueWord env m item = valueWord env 0 item := by
  obtain ⟨hobject, harray⟩ := innerCount_eq_none.mp h
  unfold valueWord
  cases htype : item.type
  case object => exact absurd htype hobject
  case array => exact absurd htype harray
  all_goals rfl

theorem Stands.answers (h : Stands env pre s vars t ((count, chain) :: above))
    (hchart : Charted s n) (name : Word) :
    Answers env pre vars name (findMember count chain (substituted name)) := by
  obtain ⟨hout, hload, ⟨m, hstored⟩, hkeys, -⟩ := h.along
  cases hfind : findMember count chain (substituted name) with
  | none =>
      obtain ⟨hvalue, htype⟩ := hchart.absent hout hload hkeys hfind
      refine ⟨?_, fun default => ?_⟩
      · rw [h.getType, expand_of_none htype, htype]
        rfl
      · rw [h.getVar, expand_of_none hvalue, hvalue]
        rfl
  | some p =>
      obtain ⟨k, ⟨htype, hvalue, -⟩, -, -⟩ := hstored.find hfind
      refine ⟨?_, fun hscalar default => ?_⟩
      · rw [h.getType, expand_of_eq htype, htype]
        rfl
      · rw [h.getVar, expand_of_eq hvalue, hvalue, ← valueWord_scalar hscalar k]
        rfl

theorem Stands.getKeys (h : Stands env pre s vars t ((count, chain) :: above)) :
    jsonGetKeys pre [] vars = (listing (memberNames count chain), true) := by
  obtain ⟨-, -, -, hkeys, -⟩ := h.along
  have hcur : vars.expand (pre ++ jsonCur) = t.name := h.cur
  have hvar : vars (pre ++ (keysOf ++ t.name)) = some ⟨listing (memberNames count chain), true⟩ :=
    (h.same (.keys t) (by simp)).trans hkeys
  simp only [jsonGetKeys, if_true, hcur, expand_of_eq hvar, hvar]
  rfl

/-- Behind `json_load` the root is current. -/
theorem json_load_stands (henv : NanPlain env) (hstart : ∀ i : Name, start (spell pre i) = none)
    (hhistory : runCalls pre history start = some vars)
    (hparse : jsonParse env str = .ok (.node item child next) rest)
    (hobject : item.type = .object) (hload : Loadable true child) :
    ∃ text cmds cs vars', jshnParse env str = some (text, 0) ∧ Shell.commands text = some cmds ∧
      cmds.mapM Call.ofCommand = some cs ∧ runCalls pre cs vars = some vars' ∧
      ∃ n, Charted (store pre vars') n ∧ Along env (store pre vars') .root [(none, child)] ∧
        Stands env pre (store pre vars') vars' .root [(none, child)] := by
  obtain ⟨text, cmds, cs, vars', hprint, hcmds, hcs, hrun, hcur, hkeys, hstored⟩ :=
    json_load_stored henv hstart hhistory hparse hobject hload
  have hwhole : runCalls pre (history ++ cs) start = some vars' := by
    rw [runCalls_append, hhistory, Option.bind_some, hrun]
  obtain ⟨n, hchart⟩ := charted_calls hstart hwhole
  have hroot : Along env (store pre vars') .root [(none, child)] :=
    ⟨Table.noConfusion, hload, ⟨0, hstored⟩, hkeys, .outside,
      expand_of_none (hchart.ends .root rfl), rfl⟩
  exact ⟨text, cmds, cs, vars', hprint, hcmds, hcs, hrun, n, hchart, hroot, hcur,
    fun _ _ => rfl, hroot⟩

/-- The members of a chain are no containers. -/
def Scalars : Json → Prop
  | .nil => True
  | .node item _ next => innerCount item.type = none ∧ Scalars next

/-- The values of the members. -/
def memberValues (env : Libc) : Json → List Word
  | .nil => []
  | .node item _ next => valueWord env 0 item :: memberValues env next

/-- Words with spaces between them. -/
def spaced : List Word → Word
  | [] => []
  | w :: ws => w ++ listing ws

/-- What `json_get_values` makes of a chain of scalars: empty values are left out. -/
def valuesText (env : Libc) (chain : Json) : Word :=
  spaced ((memberValues env chain).filter fun w => !w.isEmpty)

theorem foldl_jshnRawAppend_of_ne {dest : Word} (h : dest ≠ []) (ws : List Word) :
    ws.foldl jshnRawAppend dest = dest ++ listing (ws.filter fun w => !w.isEmpty) := by
  induction ws generalizing dest with
  | nil => exact (List.append_nil dest).symm
  | cons w ws ih =>
      rw [List.foldl_cons, jshnRawAppend, if_neg h]
      cases w with
      | nil =>
          rw [if_pos rfl, List.append_nil, List.append_nil, ih h]
          rfl
      | cons c w =>
          rw [if_neg (List.cons_ne_nil c w), ih (by simp), List.append_assoc, List.append_assoc]
          rfl

theorem foldl_jshnRawAppend (ws : List Word) :
    ws.foldl jshnRawAppend [] = spaced (ws.filter fun w => !w.isEmpty) := by
  induction ws with
  | nil => rfl
  | cons w ws ih =>
      rw [List.foldl_cons, jshnRawAppend, if_pos rfl]
      cases w with
      | nil => exact ih
      | cons c w => exact foldl_jshnRawAppend_of_ne (List.cons_ne_nil c w) ws

theorem isName_memberKey (count : Option Nat) (item : Item) : IsName (memberKey count item) := by
  cases count with
  | some k => exact isName_natText (k + 1)
  | none =>
      rw [memberKey, Option.elim_none, ← substituted_writeKeyString]
      exact isName_substituted _

/-- The name of a member stays when a function is given it. -/
theorem substituted_memberKey (count : Option Nat) (item : Item) :
    substituted (memberKey count item) = memberKey count item := by
  cases count with
  | none => exact substituted_writeKeyString _
  | some k =>
      refine (List.map_congr_left fun c hc => ?_).trans (List.map_id _)
      have hdigit : IsDigit c := isDigit_of_mem_natText (show c ∈ natText (k + 1) from hc)
      have halnum : IsAlnum c := by
        unfold IsDigit at hdigit
        unfold IsAlnum
        grind
      exact if_pos (.inl halnum)

theorem forall_memberNames {P : Word → Prop} (h : ∀ count item, P (memberKey count item)) :
    ∀ v ∈ memberNames count chain, P v := by
  induction chain generalizing count with
  | nil => exact fun v hv => absurd hv List.not_mem_nil
  | node item child next _ ihnext =>
      intro v hv
      rcases List.mem_cons.mp hv with rfl | hrest
      · exact h count item
      · exact ihnext v hrest

/-- The stored values, member by member. -/
theorem Stored.values (h : Stored env s t count n chain) (hscalars : Scalars chain) :
    (memberNames count chain).map (fun v => s.expand (.value t v)) = memberValues env chain := by
  induction chain generalizing count n with
  | nil => rfl
  | node item child next _ ihnext =>
      obtain ⟨⟨-, hvalue, -⟩, -, -, hnext⟩ := h
      obtain ⟨hscalar, hrest⟩ := hscalars
      rw [memberNames, List.map_cons, expand_of_eq hvalue, valueWord_scalar hscalar,
        ihnext hnext hrest, memberValues]

theorem Stands.currentValues (h : Stands env pre s vars t ((count, chain) :: above))
    (hscalars : Scalars chain) : currentValues pre vars = valuesText env chain := by
  obtain ⟨-, hload, ⟨m, hstored⟩, -, -⟩ := h.along
  have htokens : tokens isIfs (listing (memberNames count chain)) = memberNames count chain :=
    tokens_listing rfl (fun v hv => (memberNames_words hload v hv).1)
      fun v hv => @forall_memberNames count chain IsName isName_memberKey v hv
  have hvar : ∀ v ∈ memberNames count chain,
      (jsonGetVar pre v none vars).1 = s.expand (.value t v) := by
    intro v hv
    rw [h.getVar, @forall_memberNames count chain (fun v => substituted v = v)
      substituted_memberKey v hv]
    show (if _ then [] else _) = _
    split
    · rename_i hnil
      exact hnil.symm
    · rfl
  rw [Jshn.currentValues, h.getKeys, htokens, valuesText, ← foldl_jshnRawAppend,
    ← hstored.values hscalars, List.foldl_map]
  exact List.foldl_ext _ _ _ fun dest v hv => by rw [hvar v hv]

/-- Into a table and out of it again nothing is changed. -/
theorem Stands.back (h : Stands env pre s vars t ((count, chain) :: above)) (w : Word) :
    (vars.assign (pre ++ jsonCur) w).assign (pre ++ jsonCur) t.name = vars := by
  have hcur : vars.expand (pre ++ jsonCur) = t.name := h.cur
  have hset : vars (pre ++ jsonCur)
      = some ⟨t.name, (vars (pre ++ jsonCur)).any Variable.exported⟩ := by
    cases hvar : vars (pre ++ jsonCur) with
    | none =>
        rw [expand_of_none hvar] at hcur
        exact absurd (Table.name_injective hcur.symm) h.along.1
    | some v =>
        rw [expand_of_eq hvar] at hcur
        rw [← hcur]
        rfl
  funext i
  by_cases hi : i = pre ++ jsonCur
  · rw [hi, assign_self, assign_self, Option.any_some]
    exact hset.symm
  · rw [assign_of_ne hi, assign_of_ne hi]

/-- `json_get_values` for a name that is neither empty nor `..`. -/
theorem Stands.values (h : Stands env pre s vars t ((count, chain) :: above))
    (hchart : Charted s n) {name : Word} (hempty : name ≠ []) (hdots : name ≠ [46, 46]) :
    (enterMember count chain (substituted name) = none →
      jsonGetValues pre name vars = ([], vars, false)) ∧
    ∀ inner below, enterMember count chain (substituted name) = some (inner, below) →
      Scalars below → jsonGetValues pre name vars = (valuesText env below, vars, true) := by
  constructor
  · intro henter
    rw [jsonGetValues, if_neg hempty, h.select_stay hchart hempty hdots henter]
    rfl
  · intro inner below henter hscalars
    obtain ⟨u, hselect, hup, hu⟩ := h.select_enter hchart hempty hdots henter
    have hat := h.assign hu
    rw [jsonGetValues, if_neg hempty, hselect]
    simp only [if_true, hat.select_out hup, h.back, hat.currentValues hscalars]

end Reading

end Libubox.Jshn
