import Libubox.Jshn.Parse
import Libubox.Jshn.Store

/-!
# A document in variables

What `json_load` leaves behind: the commands that `jshn_parse` prints, run by the shell.
`Stored` says which variables hold a chain of members or elements.  A run of its commands
stores it and leaves the variables of other tables and members alone (`runCalls_stored`).
-/

namespace Libubox.Jshn

open Decimal Json Shell Vars

/-! ## Commands and calls -/

/-- The call that a command is. -/
def Call.ofCommand : Shell.Command → Option Call
  | [] => none
  | name :: args =>
      let key := args.getD 0 []
      let value := args.getD 1 []
      if name = jsonInit then some .init
      else if name = jsonAdd ++ objectType then some (.addObject key)
      else if name = jsonCloseObject then some .closeObject
      else if name = jsonAdd ++ arrayType then some (.addArray key)
      else if name = jsonCloseArray then some .closeArray
      else if name = jsonAdd ++ stringType then some (.addString key value)
      else if name = jsonAdd ++ intType then some (.addInt key value)
      else if name = jsonAdd ++ booleanType then some (.addBoolean key value)
      else if name = jsonAdd ++ doubleType then some (.addDouble key value)
      else none

/-- The text that the value of an item is given as; for a container, its table. -/
def valueWord (env : Libc) (n : Nat) (item : Item) : Word :=
  match item.type with
  | .object => (Table.object (n + 1)).name
  | .array => (Table.array (n + 1)).name
  | .string => item.valuestring.getD []
  | .true => [49]
  | .false => [48]
  | .number =>
      if jsonTypeIsDouble item ≠ 0 then doubleText env item.valuedouble
      else intText item.valueint
  | .null => []

/-- The call for a scalar. -/
def scalarCall (env : Libc) (key : Word) (item : Item) : Call :=
  match item.type with
  | .string => .addString key (valueWord env 0 item)
  | .number =>
      if jsonTypeIsDouble item ≠ 0 then .addDouble key (valueWord env 0 item)
      else .addInt key (valueWord env 0 item)
  | _ => .addBoolean key (valueWord env 0 item)

/-- The key that a call is given. -/
def callKey (index : Option Nat) (item : Item) : Word :=
  (index.map natText).getD (writeKeyString (item.string.getD []))

/-- The calls for an item, given those for its `members` or `elements`. -/
def itemCalls (env : Libc) (key : Word) (item : Item) (members elements : List Call) :
    List Call :=
  match item.type with
  | .object => .addObject key :: members ++ [.closeObject]
  | .array => .addArray key :: elements ++ [.closeArray]
  | _ => [scalarCall env key item]

/-- The calls for a chain: the members of an object, or with `some i` the elements of an
array from the one with index `i` on. -/
def calls (env : Libc) : Option Nat → Json → List Call
  | _, .nil => []
  | index, .node item child next =>
      itemCalls env (callKey index item) item (calls env none child) (calls env (some 0) child)
        ++ calls env (index.map (· + 1)) next

/-! ## Documents -/

/-- The name of a member: of an object by its key, of an array with `k` elements so far
by its number. -/
def memberKey (count : Option Nat) (item : Item) : Word :=
  count.elim (writeKeyString (item.string.getD [])) fun k => natText (k + 1)

/-- The names of the members of a chain. -/
def memberNames : Option Nat → Json → List Word
  | _, .nil => []
  | count, .node item _ next => memberKey count item :: memberNames (count.map (· + 1)) next

/-- A document that the variables can hold: no null, keys that are not empty and do not
become the same, and integers that fit an `int`. -/
def Loadable : Bool → Json → Prop
  | _, .nil => True
  | keyed, .node item child next =>
      item.type ≠ .null ∧
        (keyed = true → ∃ key ∈ item.string, 0 ∉ key ∧ key ≠ [] ∧
          writeKeyString key ∉ memberNames none next) ∧
        (item.type = .string → ∃ str ∈ item.valuestring, 0 ∉ str) ∧
        (item.type = .number → jsonTypeIsDouble item = 0 →
          -2 ^ 31 ≤ item.valueint ∧ item.valueint < 2 ^ 31) ∧
        (item.type = .object → Loadable true child) ∧
        (item.type = .array → Loadable false child) ∧ Loadable keyed next

/-- How many tables an item takes. -/
def ownTables (item : Item) (below : Nat) : Nat :=
  match item.type with
  | .object | .array => below + 1
  | _ => 0

/-- How many tables a chain takes. -/
def tables : Json → Nat
  | .nil => 0
  | .node item child next => ownTables item (tables child) + tables next

theorem Loadable.printable {keyed : Bool} {j : Json} (h : Loadable keyed j) :
    Printable keyed j := by
  induction j generalizing keyed with
  | nil => trivial
  | node item child next ihchild ihnext =>
      obtain ⟨hnull, hkey, hstring, -, hobject, harray, hnext⟩ := h
      refine ⟨hnull, fun hkeyed => ?_, hstring, fun ht => ihchild (hobject ht),
        fun ht => ihchild (harray ht), ihnext hnext⟩
      obtain ⟨key, hmem, hzero, -⟩ := hkey hkeyed
      exact ⟨key, hmem, hzero⟩

theorem ofCommand_add {type : Word} {call : Word → Word → Call}
    (h : ∀ key value, Call.ofCommand [jsonAdd ++ type, key, value] = some (call key value))
    (key value : Word) {cmds : List Shell.Command} {cs : List Call}
    (hcs : cmds.mapM Call.ofCommand = some cs) :
    ([jsonAdd ++ type, key, value] :: cmds).mapM Call.ofCommand = some (call key value :: cs) := by
  rw [List.mapM_cons, h, hcs]
  rfl

/-- What stands between the calls that open and close a container. -/
theorem mapM_container {name key closing : Word} {opening close : Call}
    (hopen : Call.ofCommand [name, key] = some opening)
    (hclose : Call.ofCommand [closing] = some close) {cmds rest : List Shell.Command}
    {cs ds : List Call} (hcs : cmds.mapM Call.ofCommand = some cs)
    (hds : rest.mapM Call.ofCommand = some ds) :
    ([name, key] :: (cmds ++ [[closing]]) ++ rest).mapM Call.ofCommand
      = some (opening :: cs ++ [close] ++ ds) := by
  simp only [List.mapM_append, List.mapM_cons, List.cons_append, hopen, hclose, hcs, hds]
  rfl

/-- The shell runs the calls that the printed commands are. -/
theorem mapM_script (env : Libc) {keyed : Bool} {j : Json} (h : Loadable keyed j)
    (index : Option Nat) :
    (script env index j).mapM Call.ofCommand = some (calls env index j) := by
  induction j generalizing keyed index with
  | nil => rfl
  | node item child next ihchild ihnext =>
      obtain ⟨hnull, -, hstring, -, hobject, harray, hnext⟩ := h
      have hrest := ihnext hnext (index.map (· + 1))
      unfold script calls itemCalls scalarCall valueWord callKey contents valueWords typeName
      cases htype : item.type with
      | null => exact absurd htype hnull
      | object => exact mapM_container rfl rfl (ihchild (hobject htype) none) hrest
      | array => exact mapM_container rfl rfl (ihchild (harray htype) (some 0)) hrest
      | string =>
          obtain ⟨str, hmem, -⟩ := hstring htype
          rw [Option.mem_def.mp hmem]
          exact ofCommand_add (fun _ _ => rfl) _ _ hrest
      | true => exact ofCommand_add (fun _ _ => rfl) _ _ hrest
      | false => exact ofCommand_add (fun _ _ => rfl) _ _ hrest
      | number =>
          by_cases hdouble : jsonTypeIsDouble item ≠ 0
          · simp only [if_pos hdouble]
            exact ofCommand_add (fun _ _ => rfl) _ _ hrest
          · simp only [if_neg hdouble]
            exact ofCommand_add (fun _ _ => rfl) _ _ hrest

/-! ## What is stored -/

/-- The number of a table. -/
def Table.num : Table → Nat
  | outside | root => 0
  | object n | array n => n

/-- The variables of a member of `t`, but not those of the tables below it. -/
def StoredMember (env : Libc) (s : Store) (t : Table) (v : Word) (n : Nat) (item : Item) : Prop :=
  s (.type t v) = some ⟨(typeName item).getD [], true⟩ ∧
    s (.value t v) = some ⟨valueWord env n item, true⟩ ∧ s (.label t v) = none

/-- The variables hold a chain in a table, with tables from number `n + 1` on below it. -/
def Stored (env : Libc) (s : Store) : Table → Option Nat → Nat → Json → Prop
  | _, _, _, .nil => True
  | t, count, n, .node item child next =>
      StoredMember env s t (memberKey count item) n item ∧
        (item.type = .object →
          s (.keys (.object (n + 1))) = some ⟨listing (memberNames none child), true⟩ ∧
            Stored env s (.object (n + 1)) none (n + 1) child) ∧
        (item.type = .array →
          s (.keys (.array (n + 1))) = some ⟨listing (memberNames (some 0) child), true⟩ ∧
            Stored env s (.array (n + 1)) (some 0) (n + 1) child) ∧
        Stored env s t (count.map (· + 1)) (n + ownTables item (tables child)) next

/-- A call for the members `vs` of `t` that opens the tables behind `n` up to `n'` writes
this variable. -/
def Touched (t : Table) (vs : List Word) (n n' : Nat) : Name → Prop
  | .cur | .seq | .unset => True
  | .keys u | .count u => u = t ∨ n < u.num ∧ u.num ≤ n'
  | .up u => n < u.num ∧ u.num ≤ n'
  | .value u v | .type u v => u = t ∧ v ∈ vs ∨ n < u.num ∧ u.num ≤ n'
  | .label _ _ => False

/-- Only such variables are written. -/
def Frame (t : Table) (vs : List Word) (n n' : Nat) (s s' : Store) : Prop :=
  ∀ i, ¬Touched t vs n n' i → s' i = s i

/-- The table `t` is current, `n` tables were opened and `ks` are its members. -/
structure Ready (s : Store) (t : Table) (n : Nat) (ks : List Word) : Prop where
  cur : s.expand .cur = t.name
  seq : arithValue (s.expand .seq) = some n
  keys : s (.keys t) = some ⟨listing ks, true⟩
  labels : ∀ u v, u ≠ .outside → s (.label u v) = none

section Frames

variable {t u : Table} {vs ws : List Word} {n n₁ n' : Nat} {s s₁ s' : Store}

theorem Touched.mono {i : Name} (h : Touched t ws n₁ n' i) (hvs : ∀ w ∈ ws, w ∈ vs)
    (hn : n ≤ n₁) {m : Nat} (hm : n' ≤ m) : Touched t vs n m i := by
  cases i <;> simp only [Touched] at h ⊢ <;> grind

theorem Touched.below {i : Name} (h : Touched u ws n₁ n' i) (hn : n < u.num) (hu : u.num ≤ n₁)
    (hle : n₁ ≤ n') : Touched t vs n n' i := by
  cases i <;> simp only [Touched] at h ⊢ <;> grind

/-- One run after another. -/
theorem Frame.trans (h : Frame t vs n n₁ s s₁) (h' : Frame t ws n₁ n' s₁ s') (hn : n ≤ n₁)
    (hn' : n₁ ≤ n') : Frame t (vs ++ ws) n n' s s' := by
  intro i hi
  rw [h' i fun htouched => hi (htouched.mono (fun w => List.mem_append_right vs) hn le_rfl),
    h i fun htouched => hi (htouched.mono (fun w => List.mem_append_left ws) le_rfl hn')]

/-- What is stored does not depend on other variables. -/
theorem Stored.congr {env : Libc} {j : Json} : ∀ {t : Table} {count : Option Nat} {n : Nat},
    Stored env s t count n j →
    (∀ v ∈ memberNames count j, s' (.type t v) = s (.type t v) ∧ s' (.value t v) = s (.value t v) ∧
      s' (.label t v) = s (.label t v)) →
    (∀ u : Table, n < u.num → u.num ≤ n + tables j → s' (.keys u) = s (.keys u) ∧
      ∀ v, s' (.type u v) = s (.type u v) ∧ s' (.value u v) = s (.value u v) ∧
        s' (.label u v) = s (.label u v)) → Stored env s' t count n j := by
  induction j with
  | nil => exact fun _ _ _ => trivial
  | node item child next ihchild ihnext =>
      intro t count n h hown hbelow
      obtain ⟨hmember, hobject, harray, hnext⟩ := h
      have hkey := hown _ List.mem_cons_self
      have hfits : ∀ m, m ≤ tables child + 1 → item.type = .object ∨ item.type = .array →
          n + m ≤ n + tables (.node item child next) := by
        intro m hm hcontainer
        have htables : ownTables item (tables child) = tables child + 1 := by
          rcases hcontainer with htype | htype <;> simp only [ownTables, htype]
        rw [tables, htables]
        omega
      refine ⟨?_, fun htype => ?_, fun htype => ?_, ?_⟩
      · rw [StoredMember, hkey.1, hkey.2.1, hkey.2.2]
        exact hmember
      · obtain ⟨hkeys, hchild⟩ := hobject htype
        have hlast := hfits (tables child + 1) le_rfl (.inl htype)
        have hnum : (Table.object (n + 1)).num = n + 1 := rfl
        have htable := hbelow (.object (n + 1)) (by omega) (by omega)
        refine ⟨htable.1.trans hkeys, ihchild hchild (fun v _ => htable.2 v) fun u hu hle => ?_⟩
        exact hbelow u (by omega) (by omega)
      · obtain ⟨hkeys, hchild⟩ := harray htype
        have hlast := hfits (tables child + 1) le_rfl (.inr htype)
        have hnum : (Table.array (n + 1)).num = n + 1 := rfl
        have htable := hbelow (.array (n + 1)) (by omega) (by omega)
        refine ⟨htable.1.trans hkeys, ihchild hchild (fun v _ => htable.2 v) fun u hu hle => ?_⟩
        exact hbelow u (by omega) (by omega)
      · refine ihnext hnext (fun v hv => hown v (List.mem_cons_of_mem _ hv)) fun u hu hle => ?_
        rw [tables] at hbelow
        exact hbelow u (by omega) (by omega)

/-- What is stored below `t` stays when more members of `t` follow. -/
theorem Stored.later {env : Libc} {inner : Option Nat} {j : Json} {m : Nat}
    (h : Stored env s u inner m j) (hframe : Frame t vs n₁ n' s s') (hu : u.num = m)
    (hm : m + tables j ≤ n₁) (ht : t.num < m) :
    Stored env s' u inner m j := by
  have hsame : ∀ w : Table, m ≤ w.num → w.num ≤ n₁ → s' (.keys w) = s (.keys w) ∧
      ∀ v, s' (.type w v) = s (.type w v) ∧ s' (.value w v) = s (.value w v) ∧
        s' (.label w v) = s (.label w v) := by
    intro w hlow hhigh
    have hne : w ≠ t := by
      rintro rfl
      omega
    have hnot : ¬(n₁ < w.num ∧ w.num ≤ n') := by omega
    refine ⟨hframe _ (not_or.mpr ⟨hne, hnot⟩), fun v => ⟨hframe _ ?_, hframe _ ?_, hframe _ id⟩⟩
    · exact not_or.mpr ⟨fun h => hne h.1, hnot⟩
    · exact not_or.mpr ⟨fun h => hne h.1, hnot⟩
  refine h.congr (fun v _ => (hsame u (by omega) (by omega)).2 v) fun w hlow hhigh => ?_
  exact hsame w (by omega) (by omega)

end Frames

/-! ## One member -/

/-- A member is entered under the next number, or under its key. -/
def enter (s : Store) (t : Table) (count : Option Nat) (v type value : Word) : Store :=
  addMember (count.elim s fun k => s.assign (.count t) (natText (k + 1))) t v type value

section Enter

variable {s : Store} {t : Table} {count : Option Nat} {v type value : Word} {i : Name}

theorem addMember_of_ne (hvalue : i ≠ .value t v) (htype : i ≠ .type t v) (hunset : i ≠ .unset)
    (hkeys : i ≠ .keys t) : addMember s t v type value i = s i := by
  rw [addMember, append_of_ne hkeys, append_of_ne hunset, exportAs_of_ne htype,
    exportAs_of_ne hvalue]

theorem addMember_value : addMember s t v type value (.value t v) = some ⟨value, true⟩ := by
  rw [addMember, append_of_ne (by simp), append_of_ne (by simp), exportAs_of_ne (by simp), exportAs_self]

theorem addMember_type : addMember s t v type value (.type t v) = some ⟨type, true⟩ := by
  rw [addMember, append_of_ne (by simp), append_of_ne (by simp), exportAs_self]

theorem addMember_keys {ks : List Word} (h : s (.keys t) = some ⟨listing ks, true⟩) :
    addMember s t v type value (.keys t) = some ⟨listing (ks ++ [v]), true⟩ := by
  have hbefore : (((s.exportAs (.value t v) value).exportAs (.type t v) type).append .unset
      (member t v)) (.keys t) = some ⟨listing ks, true⟩ := by
    rw [append_of_ne (by simp), exportAs_of_ne (by simp), exportAs_of_ne (by simp), h]
  rw [addMember, append_self, expand_of_eq hbefore, hbefore, listing_append_singleton]
  rfl

theorem enter_of_ne (hcount : i ≠ .count t) (hvalue : i ≠ .value t v) (htype : i ≠ .type t v)
    (hunset : i ≠ .unset) (hkeys : i ≠ .keys t) : enter s t count v type value i = s i := by
  rw [enter, addMember_of_ne hvalue htype hunset hkeys]
  cases count with
  | none => rfl
  | some k => exact assign_of_ne hcount

theorem enter_keys {ks : List Word} (h : s (.keys t) = some ⟨listing ks, true⟩) :
    enter s t count v type value (.keys t) = some ⟨listing (ks ++ [v]), true⟩ := by
  apply addMember_keys
  cases count with
  | none => exact h
  | some k => exact (assign_of_ne (by simp)).trans h

theorem enter_count {k : Nat} :
    (enter s t (some k) v type value).expand (.count t) = natText (k + 1) := by
  have h : enter s t (some k) v type value (.count t)
      = s.assign (.count t) (natText (k + 1)) (.count t) :=
    addMember_of_ne (by simp) (by simp) (by simp) (by simp)
  exact expand_of_eq (h.trans assign_self)

theorem frame_enter (n : Nat) : Frame t [v] n n s (enter s t count v type value) := by
  intro i hi
  apply enter_of_ne
  · rintro rfl
    exact hi (.inl rfl)
  · rintro rfl
    exact hi (.inl ⟨rfl, List.mem_singleton_self v⟩)
  · rintro rfl
    exact hi (.inl ⟨rfl, List.mem_singleton_self v⟩)
  · rintro rfl
    exact hi trivial
  · rintro rfl
    exact hi (.inl rfl)

end Enter

/-- A key that `jshn_parse` prints is not changed again. -/
theorem substituted_writeKeyString (key : Text) :
    substituted (writeKeyString key) = writeKeyString key := by
  rw [substituted, writeKeyString, List.map_map]
  apply List.map_congr_left
  intro c _
  show (if IsAlnum (if IsAlnum c then c else 95) ∨ (if IsAlnum c then c else 95) = 95
    then (if IsAlnum c then c else 95) else 95) = if IsAlnum c then c else 95
  by_cases hc : IsAlnum c
  · rw [if_pos hc, if_pos (.inl hc)]
  · rw [if_neg hc, ite_self]

/-- The counter of the elements of an array so far. -/
def Counts (s : Store) (t : Table) (count : Option Nat) : Prop :=
  (t.IsArray ↔ count.isSome = true) ∧
    ∀ k, count = some k → arithValue (s.expand (.count t)) = some k

theorem Counts.enter {s : Store} {t : Table} {count : Option Nat} (h : Counts s t count)
    (v type value : Word) :
    Counts (enter s t count v type value) t (count.map (· + 1)) := by
  cases count with
  | none => exact ⟨h.1, fun k hk => absurd hk nofun⟩
  | some k =>
      refine ⟨h.1, fun m hm => ?_⟩
      cases hm
      rw [enter_count, arithValue_natText]

section Open

variable {s : Store} {t u : Table} {m : Nat} {i : Name}

theorem openTable_of_ne (hseq : i ≠ .seq) (hup : i ≠ .up u) (hkeys : i ≠ .keys u)
    (hcount : i ≠ .count u) (hcur : i ≠ .cur) (hunset : i ≠ .unset) :
    openTable s t u m i = s i := by
  rw [openTable, append_of_ne hunset, assign_of_ne hcur, unset_of_notMem (by simpa using hcount),
    exportAs_of_ne hkeys, assign_of_ne hup, assign_of_ne hseq]

theorem openTable_cur : (openTable s t u m).expand .cur = u.name := by
  rw [openTable]
  exact expand_of_eq ((append_of_ne (by simp)).trans assign_self)

theorem openTable_seq : (openTable s t u m).expand .seq = natText m := by
  have h : openTable s t u m .seq = s.assign .seq (natText m) .seq := by
    rw [openTable, append_of_ne (by simp), assign_of_ne (by simp), unset_of_notMem (by simp),
      exportAs_of_ne (by simp), assign_of_ne (by simp)]
  exact expand_of_eq (h.trans assign_self)

theorem openTable_up : (openTable s t u m).expand (.up u) = t.name := by
  have h : openTable s t u m (.up u) = (s.assign .seq (natText m)).assign (.up u) t.name (.up u) := by
    rw [openTable, append_of_ne (by simp), assign_of_ne (by simp), unset_of_notMem (by simp),
      exportAs_of_ne (by simp)]
  exact expand_of_eq (h.trans assign_self)

theorem openTable_keys : openTable s t u m (.keys u) = some ⟨[], true⟩ := by
  rw [openTable, append_of_ne (by simp), assign_of_ne (by simp), unset_of_notMem (by simp),
    exportAs_self]

theorem openTable_count : openTable s t u m (.count u) = none := by
  rw [openTable, append_of_ne (by simp), assign_of_ne (by simp), unset_of_mem (by simp)]

theorem frame_openTable {n : Nat} (vs : List Word) (hn : n < u.num) (hm : u.num ≤ m) :
    Frame t vs n m s (openTable s t u m) := by
  intro i hi
  apply openTable_of_ne
  · rintro rfl
    exact hi trivial
  · rintro rfl
    exact hi ⟨hn, hm⟩
  · rintro rfl
    exact hi (.inr ⟨hn, hm⟩)
  · rintro rfl
    exact hi (.inr ⟨hn, hm⟩)
  · rintro rfl
    exact hi trivial
  · rintro rfl
    exact hi trivial

end Open

section Member

variable {pre : Word} {vars : Vars Word} {t : Table} {count index : Option Nat}

theorem generic_enter (hcounts : Counts (store pre vars) t count)
    (hindex : index.isSome = count.isSome) (item : Item) (type value : Word) :
    ∃ vars', jsonAddGeneric pre type (callKey index item) value t.name vars = some vars' ∧
      store pre vars' = enter (store pre vars) t count (memberKey count item) type value := by
  obtain ⟨hkind, hcount⟩ := hcounts
  cases count with
  | some k =>
      cases t with
      | array n => exact jsonAddGeneric_array (hcount k rfl) type _ value
      | outside => exact absurd (hkind.mpr rfl) id
      | root => exact absurd (hkind.mpr rfl) id
      | object n => exact absurd (hkind.mpr rfl) id
  | none =>
      have hnot : ¬t.IsArray := fun h => nomatch hkind.mp h
      have hnone : index = none := by
        cases index with
        | none => rfl
        | some i => cases hindex
      obtain ⟨vars', hrun, hstore⟩ := @jsonAddGeneric_named pre vars t hnot type
        (writeKeyString (item.string.getD [])) value
      rw [substituted_writeKeyString, if_pos rfl] at hstore
      refine ⟨vars', ?_, hstore⟩
      rw [hnone]
      exact hrun

/-- A member is entered in a table, which stays current. -/
theorem Ready.enter {s : Store} {t : Table} {n : Nat} {ks : List Word} (h : Ready s t n ks)
    (count : Option Nat) (v type value : Word) :
    Ready (enter s t count v type value) t n (ks ++ [v]) where
  cur := by
    rw [expand_congr (enter_of_ne (by simp) (by simp) (by simp) (by simp) (by simp)), h.cur]
  seq := by
    rw [expand_congr (enter_of_ne (by simp) (by simp) (by simp) (by simp) (by simp)), h.seq]
  keys := enter_keys h.keys
  labels := fun u w hu => by
    rw [enter_of_ne (by simp) (by simp) (by simp) (by simp) (by simp), h.labels u w hu]

theorem storedMember_enter {env : Libc} {s : Store} {t : Table} {v : Word} {n : Nat} {item : Item}
    (hlabel : s (.label t v) = none) :
    StoredMember env (enter s t count v ((typeName item).getD []) (valueWord env n item)) t v n
      item :=
  ⟨addMember_type, addMember_value, by
    rw [enter_of_ne (by simp) (by simp) (by simp) (by simp) (by simp), hlabel]⟩

/-- What the calls for a chain come to. -/
def Loads (pre : Word) (env : Libc) (cs : List Call) (t : Table) (count : Option Nat) (n : Nat)
    (j : Json) : Prop :=
  ∀ (vars : Vars Word) (ks : List Word), Ready (store pre vars) t n ks →
    Counts (store pre vars) t count → ∃ vars', runCalls pre cs vars = some vars' ∧
      Ready (store pre vars') t (n + tables j) (ks ++ memberNames count j) ∧
      Frame t (memberNames count j) n (n + tables j) (store pre vars) (store pre vars') ∧
      Stored env (store pre vars') t count n j

/-- The table below an item. -/
def childTable (n : Nat) (item : Item) : Table :=
  if item.type = .array then .array (n + 1) else .object (n + 1)

theorem runCalls_append (cs ds : List Call) :
    runCalls pre (cs ++ ds) vars = (runCalls pre cs vars).bind (runCalls pre ds) :=
  List.foldlM_append ..

theorem runCalls_cons (c : Call) (cs : List Call) :
    runCalls pre (c :: cs) vars = (c.run pre vars).bind (runCalls pre cs) :=
  List.foldlM_cons ..

/-- The table above becomes current. -/
theorem jsonCloseTable_eq {u : Table} (hcur : (store pre vars).expand .cur = u.name)
    (hup : (store pre vars).expand (.up u) = t.name) :
    store pre (jsonCloseTable pre vars) = (store pre vars).assign .cur t.name := by
  have hcur' : vars.expand (pre ++ jsonCur) = u.name := hcur
  rw [← store_assign, ← hup, jsonCloseTable, hcur']
  rfl

/-- An opened table, entered as a member of the one above, is ready for its own members. -/
theorem ready_openTable {s : Store} {u : Table} {n : Nat} {inner : Option Nat}
    (h : ∀ w v, w ≠ .outside → s (.label w v) = none) (htu : t ≠ u)
    (hkind : u.IsArray ↔ inner.isSome = true) (hzero : ∀ k, inner = some k → k = 0)
    (v type value : Word) :
    Ready (enter (openTable s t u (n + 1)) t count v type value) u (n + 1) [] ∧
      Counts (enter (openTable s t u (n + 1)) t count v type value) u inner := by
  have hut : u ≠ t := htu.symm
  refine ⟨⟨?_, ?_, ?_, fun w x hw => ?_⟩, hkind, fun k hk => ?_⟩
  · rw [expand_congr (enter_of_ne (by simp) (by simp) (by simp) (by simp) (by simp)),
      openTable_cur]
  · rw [expand_congr (enter_of_ne (by simp) (by simp) (by simp) (by simp) (by simp)),
      openTable_seq, arithValue_natText]
  · rw [enter_of_ne (by simp) (by simp) (by simp) (by simp) (by simpa using hut), openTable_keys]
    rfl
  · rw [enter_of_ne (by simp) (by simp) (by simp) (by simp) (by simp),
      openTable_of_ne (by simp) (by simp) (by simp) (by simp) (by simp) (by simp), h w x hw]
  · have hnone : enter (openTable s t u (n + 1)) t count v type value (.count u) = none := by
      rw [enter_of_ne (by simpa using hut) (by simp) (by simp) (by simp) (by simp),
        openTable_count]
    rw [expand_of_none hnone, arithValue_nil, hzero k hk]

/-- A container: its table is opened, filled and closed. -/
theorem container_loads {env : Libc} {item : Item} {child : Json} {n : Nat} {ks : List Word}
    {u : Table} {inner : Option Nat} {cs : List Call} {opening close : Call} {itype : UInt8}
    (hopening : ∀ vars, opening.run pre vars
      = jsonAddTable pre (callKey index item) ((typeName item).getD []) itype vars)
    (hclose : ∀ vars, close.run pre vars = some (jsonCloseTable pre vars))
    (hu : u.name = jTable ++ itype :: natText (n + 1)) (hnum : u.num = n + 1)
    (hvalue : valueWord env n item = u.name) (hout : t ≠ .outside) (htn : t.num ≤ n)
    (hkind : u.IsArray ↔ inner.isSome = true) (hzero : ∀ k, inner = some k → k = 0)
    (hchild : Loads pre env cs u inner (n + 1) child)
    (hindex : index.isSome = count.isSome) (h : Ready (store pre vars) t n ks)
    (hcounts : Counts (store pre vars) t count) :
    ∃ vars', runCalls pre (opening :: cs ++ [close]) vars = some vars' ∧
      Ready (store pre vars') t (n + (tables child + 1)) (ks ++ [memberKey count item]) ∧
      Counts (store pre vars') t (count.map (· + 1)) ∧
      Frame t [memberKey count item] n (n + (tables child + 1)) (store pre vars)
        (store pre vars') ∧
      StoredMember env (store pre vars') t (memberKey count item) n item ∧
      store pre vars' (.keys u) = some ⟨listing (memberNames inner child), true⟩ ∧
      Stored env (store pre vars') u inner (n + 1) child := by
  have htu : t ≠ u := by
    rintro rfl
    omega
  obtain ⟨vars₁, hopen, hstore₁⟩ :=
    jsonAddTable_eq (callKey index item) ((typeName item).getD []) hu h.cur h.seq
  have hcounts₁ : Counts (store pre vars₁) t count := by
    refine ⟨hcounts.1, fun k hk => ?_⟩
    rw [hstore₁, expand_congr (openTable_of_ne (by simp) (by simp) (by simp) (by simpa using htu)
      (by simp) (by simp)), hcounts.2 k hk]
  obtain ⟨vars₂, hadd, hstore₂⟩ :=
    generic_enter hcounts₁ hindex item ((typeName item).getD []) u.name
  have hready₂ := @ready_openTable t count (store pre vars) u n inner h.labels htu hkind hzero
    (memberKey count item) ((typeName item).getD []) u.name
  have hcounts₂ := hcounts₁.enter (memberKey count item) ((typeName item).getD []) u.name
  rw [← hstore₁, ← hstore₂] at hready₂
  rw [← hstore₂] at hcounts₂
  obtain ⟨vars₃, hrun, hready₃, hframe₃, hstored⟩ := hchild vars₂ [] hready₂.1 hready₂.2
  -- the variables of the table above are not written below
  have hbelow : ∀ i, ¬Touched u (memberNames inner child) (n + 1) (n + 1 + tables child) i →
      store pre vars₃ i = store pre vars₂ i := hframe₃
  have hup : (store pre vars₃).expand (.up u) = t.name := by
    rw [expand_congr (hbelow (.up u) (by simp only [Touched]; omega)), hstore₂,
      expand_congr (enter_of_ne (by simp) (by simp) (by simp) (by simp) (by simp)), hstore₁,
      openTable_up]
  have hlast := @jsonCloseTable_eq pre vars₃ t u hready₃.cur hup
  have hcur : ∀ i, i ≠ .cur → store pre (jsonCloseTable pre vars₃) i = store pre vars₃ i := by
    intro i hi
    rw [hlast, assign_of_ne hi]
  have habove : ∀ i, i ≠ .cur →
      ¬Touched u (memberNames inner child) (n + 1) (n + 1 + tables child) i →
        store pre (jsonCloseTable pre vars₃) i = store pre vars₂ i :=
    fun i hi hnot => (hcur i hi).trans (hbelow i hnot)
  have hfar : ∀ v : Word, ¬(t = u ∧ v ∈ memberNames inner child ∨
      n + 1 < t.num ∧ t.num ≤ n + 1 + tables child) := by
    rintro v (⟨heq, -⟩ | ⟨hlt, -⟩)
    · exact htu heq
    · omega
  have hnot : ¬(t = u ∨ n + 1 < t.num ∧ t.num ≤ n + 1 + tables child) := by
    rintro (heq | ⟨hlt, -⟩)
    · exact htu heq
    · omega
  refine ⟨jsonCloseTable pre vars₃, ?_, ?_, ?_, ?_, ?_, ?_, ?_⟩
  · rw [List.cons_append, runCalls_cons, hopening, hopen, hadd, Option.bind_some, runCalls_append,
      hrun, Option.bind_some, runCalls_cons, hclose]
    rfl
  · refine ⟨?_, ?_, ?_, fun w x hw => ?_⟩
    · rw [hlast]
      exact expand_of_eq assign_self
    · rw [expand_congr (hcur .seq (by simp)), hready₃.seq, Nat.add_right_comm, Nat.add_assoc]
    · rw [habove (.keys t) (by simp) hnot, hstore₂]
      apply enter_keys
      rw [hstore₁, openTable_of_ne (by simp) (by simp) (by simpa using htu) (by simp) (by simp)
        (by simp), h.keys]
    · rw [hcur _ (by simp), hready₃.labels w x hw]
  · refine ⟨hcounts₂.1, fun k hk => ?_⟩
    rw [expand_congr (habove (.count t) (by simp) hnot), hcounts₂.2 k hk]
  · intro i hi
    have hicur : i ≠ .cur := by
      rintro rfl
      exact hi trivial
    have hin : ¬Touched u (memberNames inner child) (n + 1) (n + 1 + tables child) i :=
      fun htouched => hi ((htouched.below (by omega) (by omega) (by omega)).mono (fun w hw => hw)
        le_rfl (by omega))
    have hentered : ¬Touched t [memberKey count item] n n i :=
      fun htouched => hi (htouched.mono (fun w hw => hw) le_rfl (by omega))
    have hopened : ¬Touched t [memberKey count item] n (n + 1) i :=
      fun htouched => hi (htouched.mono (fun w hw => hw) le_rfl (by omega))
    rw [habove i hicur hin, hstore₂, frame_enter n i hentered, hstore₁]
    exact frame_openTable [memberKey count item] (by omega) (by omega) i hopened
  · have hmember : StoredMember env (store pre vars₂) t (memberKey count item) n item := by
      rw [hstore₂, ← hvalue]
      apply storedMember_enter
      rw [hstore₁, openTable_of_ne (by simp) (by simp) (by simp) (by simp) (by simp) (by simp),
        h.labels t _ hout]
    rw [StoredMember, habove (.type t _) (by simp) (hfar _),
      habove (.value t _) (by simp) (hfar _), habove (.label t _) (by simp) id]
    exact hmember
  · rw [hcur _ (by simp), hready₃.keys, List.nil_append]
  · refine hstored.congr (fun v _ => ?_) fun w _ _ => ?_
    · exact ⟨hcur _ (by simp), hcur _ (by simp), hcur _ (by simp)⟩
    · exact ⟨hcur _ (by simp), fun v => ⟨hcur _ (by simp), hcur _ (by simp), hcur _ (by simp)⟩⟩

/-- A scalar is one call. -/
theorem scalar_loads {env : Libc} {item : Item} {n : Nat} {ks : List Word}
    (hnull : item.type ≠ .null) (hobject : item.type ≠ .object) (harray : item.type ≠ .array)
    (hout : t ≠ .outside) (hindex : index.isSome = count.isSome)
    (h : Ready (store pre vars) t n ks) (hcounts : Counts (store pre vars) t count) :
    ∃ vars', runCalls pre [scalarCall env (callKey index item) item] vars = some vars' ∧
      Ready (store pre vars') t n (ks ++ [memberKey count item]) ∧
      Counts (store pre vars') t (count.map (· + 1)) ∧
      Frame t [memberKey count item] n n (store pre vars) (store pre vars') ∧
      StoredMember env (store pre vars') t (memberKey count item) n item := by
  have hrun : (scalarCall env (callKey index item) item).run pre vars
      = jsonAddGeneric pre ((typeName item).getD []) (callKey index item) (valueWord env n item)
          (vars.expand (pre ++ jsonCur)) vars := by
    unfold scalarCall valueWord typeName
    cases htype : item.type with
    | null => exact absurd htype hnull
    | object => exact absurd htype hobject
    | array => exact absurd htype harray
    | string => rfl
    | true => rfl
    | false => rfl
    | number =>
        by_cases hdouble : jsonTypeIsDouble item ≠ 0
        · simp only [if_pos hdouble]
          rfl
        · simp only [if_neg hdouble]
          rfl
  obtain ⟨vars', hadd, hstore⟩ :=
    generic_enter hcounts hindex item ((typeName item).getD []) (valueWord env n item)
  have hcur : vars.expand (pre ++ jsonCur) = t.name := h.cur
  refine ⟨vars', ?_, ?_, ?_, ?_, ?_⟩
  · rw [runCalls_cons, hrun, hcur, hadd]
    rfl
  · rw [hstore]
    exact h.enter count _ _ _
  · rw [hstore]
    exact hcounts.enter _ _ _
  · rw [hstore]
    exact frame_enter n
  · rw [hstore]
    exact storedMember_enter (h.labels t _ hout)

end Member

/-! ## A chain -/

/-- The names of the elements of an array are numbers above those so far. -/
theorem mem_memberNames_some {j : Json} {k : Nat} {w : Word} (h : w ∈ memberNames (some k) j) :
    ∃ m, k < m ∧ w = natText m := by
  induction j generalizing k with
  | nil => exact absurd h List.not_mem_nil
  | node item child next ihchild ihnext =>
      rcases List.mem_cons.mp h with rfl | hrest
      · exact ⟨k + 1, Nat.lt_succ_self k, rfl⟩
      · obtain ⟨m, hm, rfl⟩ := ihnext hrest
        have hlt : k + 1 < m := hm
        exact ⟨m, by omega, rfl⟩

/-- A member does not have the name of a later one. -/
theorem Loadable.fresh {item : Item} {child next : Json} {count : Option Nat}
    (h : Loadable count.isNone (.node item child next)) :
    memberKey count item ∉ memberNames (count.map (· + 1)) next := by
  cases count with
  | none =>
      obtain ⟨key, hmem, -, -, hfresh⟩ := h.2.1 rfl
      rw [memberKey, Option.elim_none, Option.mem_def.mp hmem]
      exact hfresh
  | some k =>
      intro hmem
      obtain ⟨m, hm, heq⟩ := mem_memberNames_some hmem
      have hlt : k + 1 < m := hm
      have hsame : natText (k + 1) = natText m := heq
      have := Decimal.natText_injective hsame
      omega

section Chain

variable {pre : Word} {env : Libc} {t : Table} {count index : Option Nat} {n : Nat} {item : Item}
  {child next : Json} {vars : Vars Word} {ks : List Word}

/-- One member or element, with what is below it. -/
theorem item_loads (hnull : item.type ≠ .null) (hout : t ≠ .outside) (htn : t.num ≤ n)
    (hindex : index.isSome = count.isSome)
    (hobject : item.type = .object →
      Loads pre env (calls env none child) (.object (n + 1)) none (n + 1) child)
    (harray : item.type = .array →
      Loads pre env (calls env (some 0) child) (.array (n + 1)) (some 0) (n + 1) child)
    (h : Ready (store pre vars) t n ks) (hcounts : Counts (store pre vars) t count) :
    ∃ vars', runCalls pre (itemCalls env (callKey index item) item (calls env none child)
        (calls env (some 0) child)) vars = some vars' ∧
      Ready (store pre vars') t (n + ownTables item (tables child)) (ks ++ [memberKey count item]) ∧
      Counts (store pre vars') t (count.map (· + 1)) ∧
      Frame t [memberKey count item] n (n + ownTables item (tables child)) (store pre vars)
        (store pre vars') ∧
      StoredMember env (store pre vars') t (memberKey count item) n item ∧
      (item.type = .object →
        store pre vars' (.keys (.object (n + 1)))
            = some ⟨listing (memberNames none child), true⟩ ∧
          Stored env (store pre vars') (.object (n + 1)) none (n + 1) child) ∧
      (item.type = .array →
        store pre vars' (.keys (.array (n + 1)))
            = some ⟨listing (memberNames (some 0) child), true⟩ ∧
          Stored env (store pre vars') (.array (n + 1)) (some 0) (n + 1) child) := by
  by_cases hisobject : item.type = .object
  · have hown : ownTables item (tables child) = tables child + 1 := by
      simp only [ownTables, hisobject]
    have hkind : (Table.object (n + 1)).IsArray ↔ (none : Option Nat).isSome = true :=
      ⟨False.elim, Bool.noConfusion⟩
    have hopening : ∀ vars, (Call.addObject (callKey index item)).run pre vars
        = jsonAddTable pre (callKey index item) ((typeName item).getD []) 84 vars := by
      intro vars
      simp only [typeName, hisobject]
      rfl
    have hclose : ∀ vars, Call.closeObject.run pre vars = some (jsonCloseTable pre vars) :=
      fun _ => rfl
    have hvalue : valueWord env n item = (Table.object (n + 1)).name := by
      simp only [valueWord, hisobject]
    obtain ⟨vars', hrun, hready, hcounts', hframe, hmember, hkeys, hstored⟩ :=
      container_loads hopening (fun vars => hclose vars) rfl rfl hvalue hout htn hkind nofun
        (hobject hisobject) hindex h hcounts
    rw [hown]
    refine ⟨vars', ?_, hready, hcounts', hframe, hmember, fun _ => ⟨hkeys, hstored⟩, fun htype => ?_⟩
    · rw [← hrun]
      simp only [itemCalls, hisobject]
    · rw [hisobject] at htype
      cases htype
  by_cases hisarray : item.type = .array
  · have hown : ownTables item (tables child) = tables child + 1 := by
      simp only [ownTables, hisarray]
    have hkind : (Table.array (n + 1)).IsArray ↔ (some 0 : Option Nat).isSome = true :=
      ⟨fun _ => rfl, fun _ => trivial⟩
    have hopening : ∀ vars, (Call.addArray (callKey index item)).run pre vars
        = jsonAddTable pre (callKey index item) ((typeName item).getD []) 65 vars := by
      intro vars
      simp only [typeName, hisarray]
      rfl
    have hclose : ∀ vars, Call.closeArray.run pre vars = some (jsonCloseTable pre vars) :=
      fun _ => rfl
    have hvalue : valueWord env n item = (Table.array (n + 1)).name := by
      simp only [valueWord, hisarray]
    have hzero : ∀ k, some 0 = some k → k = 0 := fun k hk => (Option.some.inj hk).symm
    obtain ⟨vars', hrun, hready, hcounts', hframe, hmember, hkeys, hstored⟩ :=
      container_loads hopening (fun vars => hclose vars) rfl rfl hvalue hout htn hkind hzero
        (harray hisarray) hindex h hcounts
    rw [hown]
    refine ⟨vars', ?_, hready, hcounts', hframe, hmember, fun htype => ?_, fun _ => ⟨hkeys, hstored⟩⟩
    · rw [← hrun]
      simp only [itemCalls, hisarray]
    · exact absurd htype hisobject
  · have hown : ownTables item (tables child) = 0 := by
      unfold ownTables
      cases htype : item.type
      case object => exact absurd htype hisobject
      case array => exact absurd htype hisarray
      all_goals rfl
    obtain ⟨vars', hrun, hready, hcounts', hframe, hmember⟩ :=
      scalar_loads hnull hisobject hisarray hout hindex h hcounts
    rw [hown]
    refine ⟨vars', ?_, hready, hcounts', hframe, hmember, fun htype => absurd htype hisobject,
      fun htype => absurd htype hisarray⟩
    rw [← hrun]
    unfold itemCalls
    cases htype : item.type
    case object => exact absurd htype hisobject
    case array => exact absurd htype hisarray
    all_goals rfl

/-- **The calls for a chain store it**, by induction over the tree. -/
theorem chain_loads (pre : Word) (env : Libc) (j : Json) : ∀ {t : Table}
    {count index : Option Nat} {n : Nat}, Loadable count.isNone j → t ≠ .outside → t.num ≤ n →
    index.isSome = count.isSome → Loads pre env (calls env index j) t count n j := by
  induction j with
  | nil =>
      intro t count index n _ _ _ _ vars ks h _
      refine ⟨vars, rfl, ?_, fun i _ => rfl, trivial⟩
      rwa [memberNames, List.append_nil]
  | node item child next ihchild ihnext =>
      intro t count index n hload hout htn hindex vars ks h hcounts
      have hfresh := hload.fresh
      obtain ⟨hnull, -, -, -, hobject, harray, hnext⟩ := hload
      obtain ⟨vars₁, hrun, hready₁, hcounts₁, hframe₁, hmember, hobject₁, harray₁⟩ :=
        item_loads hnull hout htn hindex
          (fun htype => ihchild (hobject htype) nofun le_rfl rfl)
          (fun htype => ihchild (harray htype) nofun le_rfl rfl) h hcounts
      have hnext' : Loadable (count.map (· + 1)).isNone next := by rwa [Option.isNone_map]
      have hindex' : (index.map (· + 1)).isSome = (count.map (· + 1)).isSome := by
        rw [Option.isSome_map, Option.isSome_map, hindex]
      obtain ⟨vars', hrun', hready', hframe', hstored⟩ :=
        ihnext hnext' hout (by omega) hindex' vars₁ (ks ++ [memberKey count item]) hready₁ hcounts₁
      have hkeep : ¬(t = t ∧ memberKey count item ∈ memberNames (count.map (· + 1)) next ∨
          n + ownTables item (tables child) < t.num ∧
            t.num ≤ n + ownTables item (tables child) + tables next) := by
        rintro (⟨-, hmem⟩ | ⟨hlt, -⟩)
        · exact hfresh hmem
        · omega
      -- a table that was opened for the item
      have htable : ∀ (u : Table) (inner : Option Nat), u.num = n + 1 →
          ownTables item (tables child) = tables child + 1 →
          store pre vars₁ (.keys u) = some ⟨listing (memberNames inner child), true⟩ ∧
            Stored env (store pre vars₁) u inner (n + 1) child →
          store pre vars' (.keys u) = some ⟨listing (memberNames inner child), true⟩ ∧
            Stored env (store pre vars') u inner (n + 1) child := by
        intro u inner hnum hown hu
        refine ⟨?_, hu.2.later hframe' hnum (by omega) (by omega)⟩
        rw [hframe' (.keys u) ?_, hu.1]
        rintro (rfl | ⟨hlt, -⟩) <;> omega
      refine ⟨vars', ?_, ?_, ?_, ?_, fun htype => ?_, fun htype => ?_, hstored⟩
      · rw [calls, runCalls_append, hrun, Option.bind_some, hrun']
      · rw [tables, memberNames, ← Nat.add_assoc, ← List.singleton_append, ← List.append_assoc]
        exact hready'
      · rw [tables, memberNames, ← Nat.add_assoc, ← List.singleton_append]
        exact hframe₁.trans hframe' (by omega) (by omega)
      · rw [StoredMember, hframe' (.type t _) hkeep, hframe' (.value t _) hkeep,
          hframe' (.label t _) id]
        exact hmember
      · exact htable _ none rfl (by simp only [ownTables, htype]) (hobject₁ htype)
      · exact htable _ (some 0) rfl (by simp only [ownTables, htype]) (harray₁ htype)

end Chain

end Libubox.Jshn
