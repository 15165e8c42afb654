import Libubox.Jshn.Cleanup

/-!
# From table to table

What the reading half of `jshn.sh` relies on.  Whatever was called in a new namespace, the
keys of a table list its members, and the value of a member that is a container names a
table that leads back out (`Charted`).  That is said of all runs of calls that succeed
(`charted_calls`), step by step.
-/

namespace Libubox.Jshn

open Decimal Shell Vars

/-- The type of a container. -/
def IsContainer (type : Word) : Prop := type = objectType ∨ type = arrayType

/-- Where the variables lead once `n` tables were opened. -/
structure Charted (s : Store) (n : Nat) : Prop where
  seq : arithValue (s.expand .seq) = some n
  cur : ∃ t : Table, t.num ≤ n ∧ s.expand .cur = t.name
  up : ∀ t : Table, ∃ u : Table, u.num ≤ n ∧ s.expand (.up t) = u.name
  ends : ∀ t : Table, t.num = 0 → s (.up t) = none
  fresh : ∀ (t : Table) v, n < t.num → s (.value t v) = none ∧ s (.type t v) = none
  listed : ∀ t, t ≠ .outside → ∃ ks, s.expand (.keys t) = listing ks ∧ (∀ w ∈ ks, IsName w) ∧
    ∀ v, v ∉ ks → s (.value t v) = none ∧ s (.type t v) = none
  nested : ∀ t v, t ≠ .outside → IsContainer (s.expand (.type t v)) →
    ∃ u : Table, u.num ≤ n ∧ s.expand (.value t v) = u.name ∧ s.expand (.up u) = t.name

/-! ## Steps -/

section Steps

variable {s s₁ : Store} {t u : Table} {v type value : Word} {n : Nat}

theorem not_isContainer_nil : ¬IsContainer [] := by
  rintro (h | h) <;> cases h

theorem not_isContainer_scalar (h : type ∈ [stringType, intType, booleanType, doubleType]) :
    ¬IsContainer type := by
  have hall : ∀ w ∈ [stringType, intType, booleanType, doubleType],
      w ≠ objectType ∧ w ≠ arrayType := by decide
  exact fun hc => hc.elim (hall type h).1 (hall type h).2

theorem addMember_expand_keys (hs₁ : s₁ (.keys t) = s (.keys t)) :
    (addMember s₁ t v type value).expand (.keys t) = s.expand (.keys t) ++ 32 :: v := by
  have hbefore : (((s₁.exportAs (.value t v) value).exportAs (.type t v) type).append .unset
      (member t v)).expand (.keys t) = s.expand (.keys t) := by
    refine expand_congr ?_
    rw [append_of_ne (by simp), exportAs_of_ne (by simp), exportAs_of_ne (by simp), hs₁]
  rw [addMember, expand_of_eq append_self, hbefore]

/-- A member is entered; a container is one of the tables that were opened. -/
theorem Charted.addMember (h : Charted s n) (ht : t.num ≤ n) (hv : IsName v)
    (hs₁ : ∀ i, i ≠ .label t v → i ≠ .count t → s₁ i = s i)
    (hvalue : IsContainer type →
      ∃ u : Table, u.num ≤ n ∧ value = u.name ∧ s.expand (.up u) = t.name) :
    Charted (addMember s₁ t v type value) n := by
  have hsame : ∀ i, i ≠ .label t v → i ≠ .count t → i ≠ .value t v → i ≠ .type t v →
      i ≠ .unset → i ≠ .keys t → Jshn.addMember s₁ t v type value i = s i :=
    fun i hlabel hcount hval htype hunset hkeys =>
      (addMember_of_ne hval htype hunset hkeys).trans (hs₁ i hlabel hcount)
  have hup : ∀ w, Jshn.addMember s₁ t v type value (.up w) = s (.up w) :=
    fun w => hsame _ (by simp) (by simp) (by simp) (by simp) (by simp) (by simp)
  have hother : ∀ w x, ¬(w = t ∧ x = v) →
      Jshn.addMember s₁ t v type value (.value w x) = s (.value w x) ∧
        Jshn.addMember s₁ t v type value (.type w x) = s (.type w x) := by
    intro w x hne
    refine ⟨hsame _ ?_ ?_ ?_ ?_ ?_ ?_, hsame _ ?_ ?_ ?_ ?_ ?_ ?_⟩ <;> simp [hne]
  refine ⟨?_, ?_, fun w => ?_, fun w hw => (hup w).trans (h.ends w hw), fun w x hw => ?_,
    fun w hw => ?_, fun w x hw hcontainer => ?_⟩
  · have hseq := hsame .seq (by simp) (by simp) (by simp) (by simp) (by simp) (by simp)
    rw [expand_congr hseq, h.seq]
  · obtain ⟨w, hw, hcur⟩ := h.cur
    refine ⟨w, hw, (expand_congr ?_).trans hcur⟩
    exact hsame .cur (by simp) (by simp) (by simp) (by simp) (by simp) (by simp)
  · rw [expand_congr (hup w)]
    exact h.up w
  · have hne : ¬(w = t ∧ x = v) := by
      rintro ⟨rfl, -⟩
      omega
    rw [(hother w x hne).1, (hother w x hne).2]
    exact h.fresh w x hw
  · obtain ⟨ks, hks, hnames, hnone⟩ := h.listed w hw
    by_cases hwt : w = t
    · subst hwt
      refine ⟨ks ++ [v], ?_, fun x hx => ?_, fun x hx => ?_⟩
      · rw [addMember_expand_keys (hs₁ _ (by simp) (by simp)), hks, listing_append_singleton]
      · rcases List.mem_append.mp hx with hx | hx
        · exact hnames x hx
        · rwa [List.mem_singleton.mp hx]
      · have hxv : x ≠ v := by
          rintro rfl
          exact hx (List.mem_append_right ks (List.mem_singleton_self x))
        have hsame := hother w x fun heq => hxv heq.2
        rw [hsame.1, hsame.2]
        exact hnone x fun hmem => hx (List.mem_append_left _ hmem)
    · refine ⟨ks, ?_, hnames, fun x hx => ?_⟩
      · rw [← hks]
        exact expand_congr
          (hsame _ (by simp) (by simp) (by simp) (by simp) (by simp) (by simpa using hwt))
      · have hsame := hother w x fun heq => hwt heq.1
        rw [hsame.1, hsame.2]
        exact hnone x hx
  · by_cases heq : w = t ∧ x = v
    · obtain ⟨rfl, rfl⟩ := heq
      rw [expand_of_eq addMember_type] at hcontainer
      obtain ⟨u, hu, hvalue, hupu⟩ := hvalue hcontainer
      refine ⟨u, hu, ?_, (expand_congr (hup u)).trans hupu⟩
      rw [expand_of_eq addMember_value]
      exact hvalue
    · rw [expand_congr (hother w x heq).2] at hcontainer
      obtain ⟨u, hu, hval, hupu⟩ := h.nested w x hw hcontainer
      exact ⟨u, hu, (expand_congr (hother w x heq).1).trans hval,
        (expand_congr (hup u)).trans hupu⟩

/-- The next table is opened. -/
theorem Charted.openTable (h : Charted s n) (ht : t.num ≤ n) (hu : u.num = n + 1) :
    Charted (openTable s t u (n + 1)) (n + 1) := by
  have hmember : ∀ w x, Jshn.openTable s t u (n + 1) (.value w x) = s (.value w x) ∧
      Jshn.openTable s t u (n + 1) (.type w x) = s (.type w x) := by
    intro w x
    constructor <;>
      exact openTable_of_ne (by simp) (by simp) (by simp) (by simp) (by simp) (by simp)
  have hup : ∀ w, w ≠ u → Jshn.openTable s t u (n + 1) (.up w) = s (.up w) := by
    intro w hw
    exact openTable_of_ne (by simp) (by simpa using hw) (by simp) (by simp) (by simp) (by simp)
  have hne : ∀ w : Table, w.num ≤ n → w ≠ u := by
    rintro w hw rfl
    omega
  refine ⟨?_, ⟨u, hu.le, openTable_cur⟩, fun w => ?_, fun w hw => ?_, fun w x hw => ?_,
    fun w hw => ?_, fun w x hw hcontainer => ?_⟩
  · rw [openTable_seq, arithValue_natText]
  · by_cases hw : w = u
    · subst hw
      exact ⟨t, by omega, openTable_up⟩
    · obtain ⟨x, hx, heq⟩ := h.up w
      exact ⟨x, by omega, (expand_congr (hup w hw)).trans heq⟩
  · rw [hup w (hne w (by omega))]
    exact h.ends w hw
  · rw [(hmember w x).1, (hmember w x).2]
    exact h.fresh w x (by omega)
  · by_cases hwu : w = u
    · subst hwu
      refine ⟨[], expand_of_eq openTable_keys, nofun, fun x _ => ?_⟩
      rw [(hmember w x).1, (hmember w x).2]
      exact h.fresh w x (by omega)
    · obtain ⟨ks, hks, hnames, hnone⟩ := h.listed w hw
      refine ⟨ks, ?_, hnames, fun x hx => ?_⟩
      · rw [← hks]
        exact expand_congr (openTable_of_ne (by simp) (by simp) (by simpa using hwu) (by simp)
          (by simp) (by simp))
      · rw [(hmember w x).1, (hmember w x).2]
        exact hnone x hx
  · rw [expand_congr (hmember w x).2] at hcontainer
    obtain ⟨y, hy, hval, hupy⟩ := h.nested w x hw hcontainer
    exact ⟨y, by omega, (expand_congr (hmember w x).1).trans hval,
      (expand_congr (hup y (hne y hy))).trans hupy⟩

/-- The table above becomes current. -/
theorem Charted.closeTable (h : Charted s n) (ht : t.num ≤ n) :
    Charted (s.assign .cur t.name) n := by
  have hsame : ∀ i, i ≠ .cur → s.assign .cur t.name i = s i := fun i hi => assign_of_ne hi
  have hexpand : ∀ i, i ≠ .cur → (s.assign .cur t.name).expand i = s.expand i :=
    fun i hi => expand_congr (hsame i hi)
  refine ⟨?_, ⟨t, ht, expand_of_eq assign_self⟩, fun w => ?_, fun w hw => ?_, fun w x hw => ?_,
    fun w hw => ?_, fun w x hw hcontainer => ?_⟩
  · rw [hexpand .seq (by simp), h.seq]
  · rw [hexpand (.up w) (by simp)]
    exact h.up w
  · rw [hsame (.up w) (by simp)]
    exact h.ends w hw
  · rw [hsame (.value w x) (by simp), hsame (.type w x) (by simp)]
    exact h.fresh w x hw
  · obtain ⟨ks, hks, hnames, hnone⟩ := h.listed w hw
    refine ⟨ks, (hexpand _ (by simp)).trans hks, hnames, fun x hx => ?_⟩
    rw [hsame (.value w x) (by simp), hsame (.type w x) (by simp)]
    exact hnone x hx
  · rw [hexpand (.type w x) (by simp)] at hcontainer
    obtain ⟨u, hu, hval, hup⟩ := h.nested w x hw hcontainer
    exact ⟨u, hu, (hexpand _ (by simp)).trans hval, (hexpand _ (by simp)).trans hup⟩

end Steps

/-! ## Calls -/

section Calls

variable {pre : Word} {vars vars' : Vars Word} {ws : List Word} {t : Table} {n : Nat}

theorem Charted.generic (h : Charted (store pre vars) n) (ht : t.num ≤ n)
    {type name value : Word} (hvalue : IsContainer type →
      ∃ u : Table, u.num ≤ n ∧ value = u.name ∧ (store pre vars).expand (.up u) = t.name)
    (hrun : jsonAddGeneric pre type name value t.name vars = some vars') :
    Charted (store pre vars') n := by
  obtain ⟨v, s₁, hv, hs₁, hstore⟩ := jsonAddGeneric_some hrun
  rw [hstore]
  exact h.addMember ht hv hs₁ hvalue

theorem Charted.scalar (h : Charted (store pre vars) n) {type name value : Word}
    (htype : ¬IsContainer type) (hrun : jsonAddScalar pre type name value vars = some vars') :
    Charted (store pre vars') n := by
  obtain ⟨t, ht, hcur⟩ := h.cur
  have hcur' : vars.expand (pre ++ jsonCur) = t.name := hcur
  rw [jsonAddScalar, hcur'] at hrun
  exact h.generic ht (fun hcontainer => absurd hcontainer htype) hrun

theorem Charted.table (h : Charted (store pre vars) n) {name type : Word} {itype : UInt8}
    (hitype : ∀ k, ∃ u : Table, u.num = k ∧ u.name = jTable ++ itype :: natText k)
    (hrun : jsonAddTable pre name type itype vars = some vars') :
    Charted (store pre vars') (n + 1) := by
  obtain ⟨t, ht, hcur⟩ := h.cur
  obtain ⟨u, hnum, hu⟩ := hitype (n + 1)
  obtain ⟨vars₁, hopen, hstore⟩ := jsonAddTable_eq name type hu hcur h.seq
  rw [hopen] at hrun
  have hcharted := h.openTable ht hnum
  rw [← hstore] at hcharted
  refine hcharted.generic (by omega) (fun _ => ⟨u, hnum.le, rfl, ?_⟩) hrun
  rw [hstore]
  exact openTable_up

theorem Charted.close (h : Charted (store pre vars) n) :
    Charted (store pre (jsonCloseTable pre vars)) n := by
  obtain ⟨t, -, hcur⟩ := h.cur
  obtain ⟨u, hu, hup⟩ := h.up t
  rw [jsonCloseTable_eq hcur hup]
  exact h.closeTable hu

/-- `json_init` leaves the empty root. -/
theorem Tidy.charted (h : Tidy (store pre vars) ws) :
    Charted (store pre (jsonInitVars pre vars)) 0 := by
  obtain ⟨htidy, hready⟩ := h.init
  have hnot : ∀ t : Table, t ≠ .outside → t ≠ .root → ¬Known [] t := by
    rintro t hout hroot (heq | heq | hmem)
    · exact hout heq
    · exact hroot heq
    · exact absurd hmem List.not_mem_nil
  have hmember := fun t v ht => htidy.members t v ht List.not_mem_nil
  refine ⟨hready.seq, ⟨.root, le_rfl, hready.cur⟩, fun t => ?_, fun t ht => ?_, fun t v ht => ?_,
    fun t ht => ⟨[], ?_, nofun, fun v _ => ?_⟩, fun t v ht hcontainer => ?_⟩
  · obtain ⟨u, hu, hup⟩ := htidy.up t
    refine ⟨u, ?_, hup⟩
    rcases hu with rfl | rfl | hmem
    · exact le_rfl
    · exact le_rfl
    · exact absurd hmem List.not_mem_nil
  · by_cases hout : t = .outside
    · rw [hout]
      exact htidy.outside
    · rw [store_jsonInitVars, exportAs_of_ne (by simp), exportAs_of_ne (by simp),
        unexportAs_of_ne (by simp)]
      exact h.cleanup hout
  · have hout : t ≠ .outside := by
      rintro rfl
      cases ht
    exact ⟨(hmember t v hout).1, (hmember t v hout).2.1⟩
  · by_cases hroot : t = .root
    · rw [hroot]
      exact expand_of_eq hready.keys
    · exact expand_of_none (htidy.tables t ht (hnot t ht hroot)).1
  · exact ⟨(hmember t v ht).1, (hmember t v ht).2.1⟩
  · rw [expand_of_none (hmember t v ht).2.1] at hcontainer
    exact absurd hcontainer not_isContainer_nil

/-- Nothing is set in a new namespace. -/
theorem charted_new (hstart : ∀ i : Name, vars (spell pre i) = none) :
    Charted (store pre vars) 0 := by
  have hnone : ∀ i, store pre vars i = none := hstart
  refine ⟨?_, ⟨.outside, le_rfl, expand_of_none (hnone .cur)⟩,
    fun t => ⟨.outside, le_rfl, expand_of_none (hnone (.up t))⟩, fun t _ => hnone (.up t),
    fun t v _ => ⟨hnone (.value t v), hnone (.type t v)⟩,
    fun t _ => ⟨[], expand_of_none (hnone (.keys t)), nofun,
      fun v _ => ⟨hnone (.value t v), hnone (.type t v)⟩⟩, fun t v _ hcontainer => ?_⟩
  · rw [expand_of_none (hnone .seq), arithValue_nil]
  · rw [expand_of_none (hnone (.type t v))] at hcontainer
    exact absurd hcontainer not_isContainer_nil

/-- Every call keeps the variables charted. -/
theorem Charted.call (h : Charted (store pre vars) n) (htidy : Tidy (store pre vars) ws) {c : Call}
    (hrun : c.run pre vars = some vars') : ∃ m, Charted (store pre vars') m := by
  have hscalar : ∀ {type name value}, type ∈ [stringType, intType, booleanType, doubleType] →
      jsonAddScalar pre type name value vars = some vars' → ∃ m, Charted (store pre vars') m := by
    intro type name value htype hadd
    exact ⟨n, h.scalar (not_isContainer_scalar htype) hadd⟩
  cases c with
  | init =>
      cases hrun
      exact ⟨0, htidy.charted⟩
  | addObject name => exact ⟨n + 1, h.table (fun k => ⟨.object k, rfl, rfl⟩) hrun⟩
  | closeObject =>
      cases hrun
      exact ⟨n, h.close⟩
  | addArray name => exact ⟨n + 1, h.table (fun k => ⟨.array k, rfl, rfl⟩) hrun⟩
  | closeArray =>
      cases hrun
      exact ⟨n, h.close⟩
  | addString name value => exact hscalar (by simp) hrun
  | addInt name value => exact hscalar (by simp) hrun
  | addBoolean name value => exact hscalar (by simp) hrun
  | addDouble name value => exact hscalar (by simp) hrun

/-- The variables stay charted, by induction over the calls. -/
theorem Charted.calls {history : List Call} (h : Charted (store pre vars) n)
    (htidy : Tidy (store pre vars) ws) (hrun : runCalls pre history vars = some vars') :
    ∃ m, Charted (store pre vars') m := by
  induction history generalizing vars ws n with
  | nil =>
      cases hrun
      exact ⟨n, h⟩
  | cons c history ih =>
      rw [runCalls_cons] at hrun
      obtain ⟨vars₁, hcall, hrest⟩ := Option.bind_eq_some_iff.mp hrun
      obtain ⟨ws₁, htidy₁⟩ := htidy.call hcall
      obtain ⟨m, h₁⟩ := h.call htidy hcall
      exact ih h₁ htidy₁ hrest

/-- **After any calls in a new namespace the variables are charted.** -/
theorem charted_calls {start : Vars Word} {history : List Call}
    (hstart : ∀ i : Name, start (spell pre i) = none)
    (hrun : runCalls pre history start = some vars) : ∃ n, Charted (store pre vars) n :=
  (charted_new hstart).calls (tidy_new hstart) hrun

end Calls

end Libubox.Jshn
