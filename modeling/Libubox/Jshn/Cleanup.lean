import Libubox.Jshn.Load

/-!
# What `json_cleanup` finds

Whatever the functions were called for, every variable that they set can be found through
`JSON_UNSET` (`Tidy`), and `json_cleanup` unsets it (`jsonCleanup_clears`).  `json_init`
begins with a clean namespace for that reason (`jsonInit_ready`).  Only what is added
behind the last `json_close_*`, outside of all tables, stays.
-/

namespace Libubox.Jshn

open Decimal Shell Vars

/-! ## Tidy namespaces -/

/-- The table is one that `json_cleanup` knows of. -/
def Known (ws : List Word) (t : Table) : Prop := t = .outside ∨ t = .root ∨ t.name ∈ ws

/-- `JSON_UNSET` lists the words `ws`, which lead to every variable of a table. -/
structure Tidy (s : Store) (ws : List Word) : Prop where
  words : s.expand .unset = listing ws
  good : ∀ w ∈ ws, w ≠ [] ∧ ∀ c ∈ w, isIfs c = false
  cur : ∃ t, Known ws t ∧ s.expand .cur = t.name
  up : ∀ t, ∃ u, Known ws u ∧ s.expand (.up t) = u.name
  outside : s (.up .outside) = none
  members : ∀ t v, t ≠ .outside → member t v ∉ ws →
    s (.value t v) = none ∧ s (.type t v) = none ∧ s (.label t v) = none
  tables : ∀ t, t ≠ .outside → ¬Known ws t →
    s (.keys t) = none ∧ s (.up t) = none ∧ s (.count t) = none

theorem Known.mono {ws vs : List Word} {t : Table} (h : Known ws t) : Known (ws ++ vs) t :=
  h.imp_right (Or.imp_right (List.mem_append_left vs))

/-! ## Words -/

theorem isIfs_of_isDigit {c : UInt8} (h : IsDigit c) : isIfs c = false := by
  unfold IsDigit at h
  unfold isIfs
  grind

theorem isIfs_name (t : Table) : ∀ c ∈ t.name, isIfs c = false := by
  have hnumber : ∀ (kind : UInt8) (n : Nat), isIfs kind = false →
      ∀ c ∈ jTable ++ kind :: natText n, isIfs c = false := by
    intro kind n hkind c hc
    rcases List.mem_append.mp hc with hc | hc
    · rcases List.mem_cons.mp hc with rfl | hc
      · rfl
      · rw [List.mem_singleton.mp hc]
        rfl
    · rcases List.mem_cons.mp hc with rfl | hc
      · exact hkind
      · exact isIfs_of_isDigit (isDigit_of_mem_natText hc)
  cases t with
  | outside => exact fun c hc => absurd hc List.not_mem_nil
  | root => simp [Table.name, jV, isIfs]
  | object n => exact hnumber 84 n rfl
  | array n => exact hnumber 65 n rfl

/-- A name for variables has no separators in it. -/
def IsName (v : Word) : Prop := ∀ c ∈ v, isIfs c = false

theorem isName_natText (n : Nat) : IsName (natText n) :=
  fun _ hc => isIfs_of_isDigit (isDigit_of_mem_natText hc)

theorem isName_substituted (name : Word) : IsName (substituted name) := by
  intro c hc
  obtain ⟨d, -, rfl⟩ := List.mem_map.mp hc
  unfold IsAlnum isIfs
  grind

theorem member_word (t : Table) {v : Word} (hv : IsName v) :
    member t v ≠ [] ∧ ∀ c ∈ member t v, isIfs c = false := by
  constructor
  · intro hnil
    exact absurd (List.append_eq_nil_iff.mp hnil).2 (List.cons_ne_nil _ _)
  · intro c hc
    rcases List.mem_append.mp hc with hc | hc
    · exact isIfs_name t c hc
    · rcases List.mem_cons.mp hc with rfl | hc
      · rfl
      · exact hv c hc

/-! ## Steps -/

section Steps

variable {s s₁ : Store} {ws : List Word} {t u : Table} {v : Word}

/-- A step that only adds words and writes what they lead to. -/
theorem Tidy.step {s' : Store} {vs : List Word} (h : Tidy s ws)
    (hwords : s'.expand .unset = listing (ws ++ vs))
    (hgood : ∀ w ∈ vs, w ≠ [] ∧ ∀ c ∈ w, isIfs c = false)
    (hcur : ∃ t, Known (ws ++ vs) t ∧ s'.expand .cur = t.name)
    (hup : ∀ t, s' (.up t) = s (.up t) ∨ t.name ∈ vs ∧
      ∃ u, Known (ws ++ vs) u ∧ s'.expand (.up t) = u.name)
    (hmembers : ∀ t v, t ≠ .outside → member t v ∉ ws ++ vs → s' (.value t v) = s (.value t v) ∧
      s' (.type t v) = s (.type t v) ∧ s' (.label t v) = s (.label t v))
    (htables : ∀ t, t ≠ .outside → ¬Known (ws ++ vs) t → s' (.keys t) = s (.keys t) ∧
      s' (.count t) = s (.count t)) : Tidy s' (ws ++ vs) where
  words := hwords
  good := fun w hw => (List.mem_append.mp hw).elim (h.good w) (hgood w)
  cur := hcur
  up := fun t => by
    rcases hup t with hsame | ⟨-, u, hu, heq⟩
    · obtain ⟨u, hu, heq⟩ := h.up t
      exact ⟨u, hu.mono, (expand_congr hsame).trans heq⟩
    · exact ⟨u, hu, heq⟩
  outside := by
    rcases hup .outside with hsame | ⟨hmem, -⟩
    · exact hsame.trans h.outside
    · exact absurd rfl (hgood _ hmem).1
  members := fun t v ht hv => by
    obtain ⟨hvalue, htype, hlabel⟩ := h.members t v ht fun hmem => hv (List.mem_append_left vs hmem)
    obtain ⟨hvalue', htype', hlabel'⟩ := hmembers t v ht hv
    exact ⟨hvalue'.trans hvalue, htype'.trans htype, hlabel'.trans hlabel⟩
  tables := fun t ht hknown => by
    obtain ⟨hkeys, hupt, hcount⟩ := h.tables t ht fun hk => hknown hk.mono
    obtain ⟨hkeys', hcount'⟩ := htables t ht hknown
    refine ⟨hkeys'.trans hkeys, ?_, hcount'.trans hcount⟩
    rcases hup t with hsame | ⟨hmem, -⟩
    · exact hsame.trans hupt
    · exact absurd (.inr (.inr (List.mem_append_right ws hmem))) hknown

theorem addMember_unset {type value : Word} :
    (addMember s t v type value).expand .unset = s.expand .unset ++ 32 :: member t v := by
  have hlast : addMember s t v type value .unset
      = ((s.exportAs (.value t v) value).exportAs (.type t v) type).append .unset (member t v)
          .unset := append_of_ne (by simp)
  have hfirst : ((s.exportAs (.value t v) value).exportAs (.type t v) type).expand .unset
      = s.expand .unset :=
    expand_congr ((exportAs_of_ne (by simp)).trans (exportAs_of_ne (by simp)))
  rw [expand_of_eq (hlast.trans append_self), hfirst]

/-- A member is entered, with its name or its number. -/
theorem Tidy.addMember (h : Tidy s ws) (ht : Known ws t) (hv : IsName v)
    (hs₁ : ∀ i, i ≠ .label t v → i ≠ .count t → s₁ i = s i) (type value : Word) :
    Tidy (addMember s₁ t v type value) (ws ++ [member t v]) := by
  have hsame : ∀ i, i ≠ .label t v → i ≠ .count t → i ≠ .value t v → i ≠ .type t v →
      i ≠ .unset → i ≠ .keys t → Jshn.addMember s₁ t v type value i = s i :=
    fun i hlabel hcount hvalue htype hunset hkeys =>
      (addMember_of_ne hvalue htype hunset hkeys).trans (hs₁ i hlabel hcount)
  have hother : ∀ u x, member u x ∉ ws ++ [member t v] → ¬(u = t ∧ x = v) := by
    rintro u x hnot ⟨rfl, rfl⟩
    exact hnot (List.mem_append_right ws (List.mem_singleton_self _))
  refine h.step ?_ ?_ ?_ (fun u => .inl ?_) (fun u x _ hnot => ?_) fun u _ hnot => ?_
  · rw [addMember_unset, expand_congr (hs₁ .unset (by simp) (by simp)), h.words,
      listing_append_singleton]
  · intro w hw
    rw [List.mem_singleton.mp hw]
    exact member_word t hv
  · obtain ⟨u, hu, hcur⟩ := h.cur
    refine ⟨u, hu.mono, (expand_congr ?_).trans hcur⟩
    exact hsame .cur (by simp) (by simp) (by simp) (by simp) (by simp) (by simp)
  · exact hsame _ (by simp) (by simp) (by simp) (by simp) (by simp) (by simp)
  · have hne := hother u x hnot
    refine ⟨hsame _ ?_ ?_ ?_ ?_ ?_ ?_, hsame _ ?_ ?_ ?_ ?_ ?_ ?_, hsame _ ?_ ?_ ?_ ?_ ?_ ?_⟩ <;>
      simp [hne]
  · have hne : u ≠ t := by
      rintro rfl
      exact hnot ht.mono
    exact ⟨hsame _ (by simp) (by simp) (by simp) (by simp) (by simp) (by simpa using hne),
      hsame _ (by simp) (by simpa using hne) (by simp) (by simp) (by simp) (by simp)⟩

theorem openTable_unset {m : Nat} :
    (openTable s t u m).expand .unset = s.expand .unset ++ 32 :: u.name := by
  rw [openTable, expand_of_eq append_self]
  congr 1

/-- A table is opened. -/
theorem Tidy.openTable (h : Tidy s ws) (ht : Known ws t) (hu : u ≠ .outside) (m : Nat) :
    Tidy (openTable s t u m) (ws ++ [u.name]) := by
  have hmem : u.name ∈ ws ++ [u.name] := List.mem_append_right ws (List.mem_singleton_self _)
  refine h.step ?_ ?_ ⟨u, .inr (.inr hmem), openTable_cur⟩ (fun w => ?_) (fun w x _ _ => ?_)
    fun w _ hnot => ?_
  · rw [openTable_unset, h.words, listing_append_singleton]
  · intro w hw
    rw [List.mem_singleton.mp hw]
    exact ⟨fun hnil => hu (Table.name_injective hnil), isIfs_name u⟩
  · by_cases hw : w = u
    · subst hw
      exact .inr ⟨List.mem_singleton_self _, t, ht.mono, openTable_up⟩
    · exact .inl (openTable_of_ne (by simp) (by simpa using hw) (by simp) (by simp) (by simp)
        (by simp))
  · refine ⟨?_, ?_, ?_⟩ <;>
      exact openTable_of_ne (by simp) (by simp) (by simp) (by simp) (by simp) (by simp)
  · have hne : w ≠ u := by
      rintro rfl
      exact hnot (.inr (.inr hmem))
    exact ⟨openTable_of_ne (by simp) (by simp) (by simpa using hne) (by simp) (by simp) (by simp),
      openTable_of_ne (by simp) (by simp) (by simp) (by simpa using hne) (by simp) (by simp)⟩

/-- The table above becomes current. -/
theorem Tidy.closeTable (h : Tidy s ws) (ht : Known ws t) : Tidy (s.assign .cur t.name) ws := by
  have hsame : ∀ i, i ≠ .cur → s.assign .cur t.name i = s i := fun i hi => assign_of_ne hi
  rw [← List.append_nil ws]
  refine h.step ?_ nofun ⟨t, ht.mono, expand_of_eq assign_self⟩ (fun u => .inl ?_)
    (fun u x _ _ => ⟨?_, ?_, ?_⟩) fun u _ _ => ⟨?_, ?_⟩
  · rw [expand_congr (hsame _ (by simp)), h.words, List.append_nil]
  all_goals exact hsame _ (by simp)

end Steps

/-! ## Calls -/

section Calls

variable {pre : Word} {vars vars' : Vars Word} {ws : List Word} {t : Table}

/-- A member gets a name for variables, and nothing else is written for it. -/
theorem jsonAddGeneric_some {type name value : Word}
    (h : jsonAddGeneric pre type name value t.name vars = some vars') :
    ∃ v s₁, IsName v ∧ (∀ i, i ≠ .label t v → i ≠ .count t → s₁ i = store pre vars i) ∧
      store pre vars' = addMember s₁ t v type value := by
  by_cases ht : t.IsArray
  · obtain ⟨n, rfl⟩ : ∃ n, t = .array n := by
      cases t with
      | array n => exact ⟨n, rfl⟩
      | outside => exact ht.elim
      | root => exact ht.elim
      | object n => exact ht.elim
    cases hcount : arithValue ((store pre vars).expand (.count (.array n))) with
    | none =>
        have hinc : jsonInc pre (seqOf ++ (Table.array n).name) vars = none := by
          rw [expand_store] at hcount
          show (arithValue (vars.expand (pre ++ (Name.count (.array n)).text))).map _ = none
          rw [hcount]
          rfl
        rw [jsonAddGeneric, memberName, if_pos (withoutNumber_array n), hinc] at h
        cases h
    | some k =>
        obtain ⟨vars₂, hadd, hstore⟩ := jsonAddGeneric_array hcount type name value
        rw [h, Option.some.injEq] at hadd
        subst hadd
        exact ⟨_, _, isName_natText (k + 1), fun i _ hi => assign_of_ne hi, hstore⟩
  · obtain ⟨vars₂, hadd, hstore⟩ := @jsonAddGeneric_named pre vars t ht type name value
    rw [h, Option.some.injEq] at hadd
    subst hadd
    refine ⟨_, _, isName_substituted name, fun i hi _ => ?_, hstore⟩
    split
    · rfl
    · exact exportAs_of_ne hi

theorem Tidy.generic (h : Tidy (store pre vars) ws) (ht : Known ws t) {type name value : Word}
    (hrun : jsonAddGeneric pre type name value t.name vars = some vars') :
    ∃ ws', Tidy (store pre vars') ws' := by
  obtain ⟨v, s₁, hv, hs₁, hstore⟩ := jsonAddGeneric_some hrun
  rw [hstore]
  exact ⟨_, h.addMember ht hv hs₁ type value⟩

theorem Tidy.scalar (h : Tidy (store pre vars) ws) {type name value : Word}
    (hrun : jsonAddScalar pre type name value vars = some vars') :
    ∃ ws', Tidy (store pre vars') ws' := by
  obtain ⟨t, ht, hcur⟩ := h.cur
  have hcur' : vars.expand (pre ++ jsonCur) = t.name := hcur
  rw [jsonAddScalar, hcur'] at hrun
  exact h.generic ht hrun

theorem Tidy.table (h : Tidy (store pre vars) ws) {name type : Word} {itype : UInt8}
    (hitype : ∀ n, ∃ u : Table, u ≠ .outside ∧ u.name = jTable ++ itype :: natText n)
    (hrun : jsonAddTable pre name type itype vars = some vars') :
    ∃ ws', Tidy (store pre vars') ws' := by
  obtain ⟨t, ht, hcur⟩ := h.cur
  cases hseq : arithValue ((store pre vars).expand .seq) with
  | none =>
      have hinc : jsonInc pre jsonSeq vars = none := by
        show (arithValue (vars.expand (pre ++ Name.seq.text))).map _ = none
        rw [← expand_store, hseq]
        rfl
      rw [jsonAddTable, hinc] at hrun
      cases hrun
  | some n =>
      obtain ⟨u, hout, hu⟩ := hitype (n + 1)
      obtain ⟨vars₁, hopen, hstore⟩ := jsonAddTable_eq name type hu hcur hseq
      rw [hopen] at hrun
      have htidy := h.openTable ht hout (n + 1)
      rw [← hstore] at htidy
      exact htidy.generic ht.mono hrun

theorem Tidy.close (h : Tidy (store pre vars) ws) :
    ∃ ws', Tidy (store pre (jsonCloseTable pre vars)) ws' := by
  obtain ⟨t, -, hcur⟩ := h.cur
  obtain ⟨u, hu, hup⟩ := h.up t
  rw [jsonCloseTable_eq hcur hup]
  exact ⟨ws, h.closeTable hu⟩

/-! ## `json_cleanup` and `json_init` -/

/-- A variable of a table or of the namespace. -/
def Name.Inside : Name → Prop
  | cur | seq | unset => True
  | keys t | up t | count t => t ≠ .outside
  | value t _ | type t _ | label t _ => t ≠ .outside

/-- What is not set stays so. -/
theorem jsonCleanup_of_none {i : Name} (h : store pre vars i = none) :
    store pre (jsonCleanup pre vars) i = none := by
  show vars.unset _ (spell pre i) = none
  rw [unset]
  split
  · rfl
  · exact h

/-- **`json_cleanup` leaves nothing behind that the calls have set.** -/
theorem Tidy.cleanup (h : Tidy (store pre vars) ws) {i : Name} (hi : i.Inside) :
    store pre (jsonCleanup pre vars) i = none := by
  have hunset : vars.expand (pre ++ jsonUnset) = listing ws := h.words
  have hwords : tokens isIfs (vars.expand (pre ++ jsonUnset)) = ws := by
    rw [hunset]
    exact tokens_listing rfl (fun w hw => (h.good w hw).1) fun w hw => (h.good w hw).2
  have hlast : ∀ k : Name, k.text ∈ [jsonSeq, jsonCur, jsonUnset] →
      store pre (jsonCleanup pre vars) k = none := by
    intro k hk
    apply unset_of_mem
    exact List.mem_append_right _ (List.mem_map_of_mem hk)
  have hword : ∀ (kind tmp : Word) (k : Name), kind ∈ [upOf, keysOf, seqOf, typeOf, nameOf, []] →
      tmp ∈ ws ++ [jV] → k.text = kind ++ tmp → store pre (jsonCleanup pre vars) k = none := by
    intro kind tmp k hkind htmp hk
    apply unset_of_mem
    rw [hwords, spell, hk]
    exact List.mem_append_left _
      (List.mem_flatMap.mpr ⟨tmp, htmp, List.mem_map.mpr ⟨kind, hkind, rfl⟩⟩)
  -- a table is listed, or nothing was set for it
  have htable : ∀ (kind : Word) (t : Table) (k : Name), t ≠ .outside →
      kind ∈ [upOf, keysOf, seqOf, typeOf, nameOf, []] → k.text = kind ++ t.name →
      (¬Known ws t → store pre vars k = none) → store pre (jsonCleanup pre vars) k = none := by
    intro kind t k ht hkind hk hnone
    by_cases hknown : Known ws t
    · rcases hknown with hout | rfl | hmem
      · exact absurd hout ht
      · exact hword kind _ k hkind (List.mem_append_right ws (List.mem_singleton_self _)) hk
      · exact hword kind _ k hkind (List.mem_append_left _ hmem) hk
    · exact jsonCleanup_of_none (hnone hknown)
  have hmember : ∀ (kind : Word) (t : Table) (v : Word) (k : Name),
      kind ∈ [upOf, keysOf, seqOf, typeOf, nameOf, []] → k.text = kind ++ member t v →
      (member t v ∉ ws → store pre vars k = none) → store pre (jsonCleanup pre vars) k = none := by
    intro kind t v k hkind hk hnone
    by_cases hmem : member t v ∈ ws
    · exact hword kind _ k hkind (List.mem_append_left _ hmem) hk
    · exact jsonCleanup_of_none (hnone hmem)
  cases i with
  | cur => exact hlast .cur (by simp [Name.text])
  | seq => exact hlast .seq (by simp [Name.text])
  | unset => exact hlast .unset (by simp [Name.text])
  | keys t => exact htable keysOf t _ hi (by simp) rfl fun hn => (h.tables t hi hn).1
  | up t => exact htable upOf t _ hi (by simp) rfl fun hn => (h.tables t hi hn).2.1
  | count t => exact htable seqOf t _ hi (by simp) rfl fun hn => (h.tables t hi hn).2.2
  | value t v => exact hmember [] t v _ (by simp) rfl fun hn => (h.members t v hi hn).1
  | type t v => exact hmember typeOf t v _ (by simp) rfl fun hn => (h.members t v hi hn).2.1
  | label t v => exact hmember nameOf t v _ (by simp) rfl fun hn => (h.members t v hi hn).2.2

/-- `json_init`, on what `json_cleanup` leaves. -/
theorem store_jsonInitVars : store pre (jsonInitVars pre vars)
    = (((store pre (jsonCleanup pre vars)).unexportAs .seq [48]).exportAs .cur jV).exportAs
        (.keys .root) [] := by
  rw [← store_unexportAs, ← store_exportAs, ← store_exportAs]
  rfl

/-- **`json_init` begins with an empty object**, whatever was there. -/
theorem Tidy.init (h : Tidy (store pre vars) ws) :
    Tidy (store pre (jsonInitVars pre vars)) [] ∧ Ready (store pre (jsonInitVars pre vars)) .root 0 [] := by
  have hother : ∀ i, i ≠ .seq → i ≠ .cur → i ≠ .keys .root →
      store pre (jsonInitVars pre vars) i = store pre (jsonCleanup pre vars) i := by
    intro i hseq hcur hkeys
    rw [store_jsonInitVars, exportAs_of_ne hkeys, exportAs_of_ne hcur, unexportAs_of_ne hseq]
  have hnone : ∀ i : Name, i.Inside → i ≠ .seq → i ≠ .cur → i ≠ .keys .root →
      store pre (jsonInitVars pre vars) i = none :=
    fun i hi hseq hcur hkeys => (hother i hseq hcur hkeys).trans (h.cleanup hi)
  have houtside : store pre (jsonInitVars pre vars) (.up .outside) = none :=
    (hother _ (by simp) (by simp) (by simp)).trans (jsonCleanup_of_none h.outside)
  have hcur : (store pre (jsonInitVars pre vars)).expand .cur = jV := by
    rw [store_jsonInitVars]
    exact expand_of_eq ((exportAs_of_ne (by simp)).trans exportAs_self)
  have hseq : (store pre (jsonInitVars pre vars)).expand .seq = [48] := by
    rw [store_jsonInitVars]
    exact expand_of_eq
      ((exportAs_of_ne (by simp)).trans ((exportAs_of_ne (by simp)).trans unexportAs_self))
  constructor
  · refine ⟨?_, nofun, ⟨.root, .inr (.inl rfl), hcur⟩, fun t => ⟨.outside, .inl rfl, ?_⟩, houtside,
      fun t v ht _ => ⟨?_, ?_, ?_⟩, fun t ht hknown => ?_⟩
    · exact expand_of_none (hnone .unset trivial (by simp) (by simp) (by simp))
    · apply expand_of_none
      by_cases ht : t = .outside
      · rw [ht, houtside]
      · exact hnone (.up t) ht (by simp) (by simp) (by simp)
    · exact hnone (.value t v) ht (by simp) (by simp) (by simp)
    · exact hnone (.type t v) ht (by simp) (by simp) (by simp)
    · exact hnone (.label t v) ht (by simp) (by simp) (by simp)
    · have hroot : t ≠ .root := fun heq => hknown (.inr (.inl heq))
      exact ⟨hnone (.keys t) ht (by simp) (by simp) (by simpa using hroot),
        hnone (.up t) ht (by simp) (by simp) (by simp),
        hnone (.count t) ht (by simp) (by simp) (by simp)⟩
  · refine ⟨hcur, ?_, ?_, fun t v ht => hnone (.label t v) ht (by simp) (by simp) (by simp)⟩
    · rw [hseq]
      rfl
    · rw [store_jsonInitVars]
      exact exportAs_self

/-! ## Histories -/

/-- Every call keeps the namespace tidy. -/
theorem Tidy.call (h : Tidy (store pre vars) ws) {c : Call} (hrun : c.run pre vars = some vars') :
    ∃ ws', Tidy (store pre vars') ws' := by
  cases c with
  | init =>
      cases hrun
      exact ⟨[], h.init.1⟩
  | addObject name => exact h.table (fun n => ⟨.object n, nofun, rfl⟩) hrun
  | closeObject =>
      cases hrun
      exact h.close
  | addArray name => exact h.table (fun n => ⟨.array n, nofun, rfl⟩) hrun
  | closeArray =>
      cases hrun
      exact h.close
  | addString name value => exact h.scalar hrun
  | addInt name value => exact h.scalar hrun
  | addBoolean name value => exact h.scalar hrun
  | addDouble name value => exact h.scalar hrun

/-- Nothing is set in a new namespace. -/
theorem tidy_new (hstart : ∀ i : Name, vars (spell pre i) = none) : Tidy (store pre vars) [] where
  words := expand_of_none (hstart .unset)
  good := nofun
  cur := ⟨.outside, .inl rfl, expand_of_none (hstart .cur)⟩
  up := fun t => ⟨.outside, .inl rfl, expand_of_none (hstart (.up t))⟩
  outside := hstart (.up .outside)
  members := fun t v _ _ => ⟨hstart (.value t v), hstart (.type t v), hstart (.label t v)⟩
  tables := fun t _ _ => ⟨hstart (.keys t), hstart (.up t), hstart (.count t)⟩

/-- A namespace stays tidy, by induction over the calls. -/
theorem Tidy.calls {history : List Call} (h : Tidy (store pre vars) ws)
    (hrun : runCalls pre history vars = some vars') : ∃ ws', Tidy (store pre vars') ws' := by
  induction history generalizing vars ws with
  | nil =>
      cases hrun
      exact ⟨ws, h⟩
  | cons c history ih =>
      rw [runCalls_cons] at hrun
      obtain ⟨vars₁, hcall, hrest⟩ := Option.bind_eq_some_iff.mp hrun
      obtain ⟨ws₁, h₁⟩ := h.call hcall
      exact ih h₁ hrest

/-- **`json_init` starts an empty object after any calls.** -/
theorem jsonInit_ready {start : Vars Word} {history : List Call}
    (hstart : ∀ i : Name, start (spell pre i) = none)
    (hrun : runCalls pre history start = some vars) :
    Ready (store pre (jsonInitVars pre vars)) .root 0 [] := by
  obtain ⟨ws, h⟩ := (tidy_new hstart).calls hrun
  exact h.init.2

end Calls

end Libubox.Jshn
