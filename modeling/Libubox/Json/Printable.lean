import Libubox.Json.PrintFits

/-!
# One line

Without `fmt` the printer writes no control characters: `printValue_printable`.  What
an item brings along from an earlier call may have them, but only if it was printed
with `fmt`, and then it is not used (`Tidy`).  Every call leaves a tidy tree behind,
and so does everything else the API does to a tree (`Built.tidy`).
-/

namespace Libubox.Json.Printer

open Binary64 Decimal escapeChar

/-- No byte of the text is below `0x20`. -/
def Printable (t : Text) : Prop := ∀ c ∈ t, 32 ≤ c

instance (t : Text) : Decidable (Printable t) := List.decidableBAll (fun c => 32 ≤ c) t

theorem printable_nil : Printable [] := fun _ hc => absurd hc List.not_mem_nil

theorem Printable.cons {c : UInt8} {t : Text} (hc : 32 ≤ c) (ht : Printable t) :
    Printable (c :: t) := by
  intro d hd
  rcases List.mem_cons.mp hd with rfl | hd
  · exact hc
  · exact ht d hd

theorem Printable.append {s t : Text} (hs : Printable s) (ht : Printable t) :
    Printable (s ++ t) := by
  intro c hc
  rcases List.mem_append.mp hc with hc | hc
  · exact hs c hc
  · exact ht c hc

/-! ## Strings -/

theorem printable_hexDigit {d : UInt8} (h : d < 16) : 32 ≤ hexDigit d := by
  unfold hexDigit
  split <;> grind

theorem printable_escapeLetter {c letter : UInt8} (h : escapeLetter c = some letter) :
    32 ≤ letter := by
  unfold escapeLetter at h
  grind

theorem printable_escapeChar (c : UInt8) : Printable (escapeChar c) := by
  rw [escapeChar_eq]
  by_cases hplain : 31 < c ∧ c ≠ quote ∧ c ≠ backslash
  · rw [if_pos hplain]
    exact printable_nil.cons (by grind)
  · rw [if_neg hplain]
    apply Printable.cons (by decide)
    cases hletter : escapeLetter c with
    | some letter => exact printable_nil.cons (printable_escapeLetter hletter)
    | none =>
        have hhigh : 32 ≤ hexDigit (c / 16) := printable_hexDigit (by grind)
        have hlow : 32 ≤ hexDigit (c % 16) := printable_hexDigit (by grind)
        simp [Printable, letterU, hhigh, hlow]

theorem printable_stringText (str : Option Text) : Printable (stringText str) := by
  cases str with
  | none => exact printable_nil
  | some str =>
      apply Printable.append
      · apply Printable.cons (by decide)
        intro c hc
        obtain ⟨d, -, hd⟩ := List.mem_flatMap.mp hc
        exact printable_escapeChar d c hd
      · exact Printable.cons (by decide) printable_nil

/-! ## Numbers -/

theorem printable_natText (n : Nat) : Printable (natText n) := by
  intro c hc
  exact UInt8.le_trans (by decide) (isDigit_of_mem_natText hc).1

theorem printable_intText (k : Int) : Printable (intText k) := by
  rw [intText]
  split
  · exact (printable_natText _).cons (by decide)
  · exact printable_natText _

theorem printable_paddedText (width n : Nat) : Printable (paddedText width n) := by
  apply Printable.append _ (printable_natText n)
  intro c hc
  rw [List.eq_of_mem_replicate hc]
  decide

theorem printable_sign (p : Prop) [Decidable p] : Printable (if p then [45] else []) := by
  split
  · exact Printable.cons (by decide) printable_nil
  · exact printable_nil

theorem printable_fixedText (places : Nat) (q : ℚ) : Printable (fixedText places q) := by
  apply ((printable_sign _).append (printable_natText _)).append
  split
  · exact printable_nil
  · exact (printable_paddedText _ _).cons (by decide)

theorem printable_exponentText (q : ℚ) : Printable (exponentText q) := by
  have hsign (p : Prop) [Decidable p] : (32 : UInt8) ≤ if p then 45 else 43 := by
    split <;> decide
  unfold exponentText
  apply Printable.append
  · exact ((printable_sign _).append (printable_natText _)).append
      ((printable_paddedText _ _).cons (by decide))
  · apply Printable.cons (by decide)
    exact Printable.cons (hsign _) (printable_paddedText _ _)

theorem printable_doubleText {env : Libc} (hnan : Printable env.nanText) {finite : ℚ → Text}
    (hfinite : ∀ q, Printable (finite q)) (d : Double) : Printable (doubleText env finite d) := by
  cases d with
  | finite q => exact hfinite q
  | inf negative =>
      apply Printable.append
      · split
        · exact Printable.cons (by decide) printable_nil
        · exact printable_nil
      · exact .cons (by decide) (.cons (by decide) (.cons (by decide) printable_nil))
  | nan => exact hnan

theorem printable_printNumber {env : Libc} (hnan : Printable env.nanText) (item : Item) :
    Printable (printNumber env item).2 := by
  unfold printNumber
  dsimp only
  split_ifs
  · exact printable_intText _
  · exact printable_doubleText hnan (printable_fixedText 0) _
  · exact printable_doubleText hnan printable_exponentText _
  · exact printable_doubleText hnan (printable_fixedText 6) _

/-! ## Arrays and objects -/

theorem printable_entriesText {entries : List Text} (h : ∀ t ∈ entries, Printable t) :
    Printable (entriesText false entries) := by
  induction entries with
  | nil => exact printable_nil
  | cons t ts ih =>
      have ht := h t List.mem_cons_self
      have hts := ih fun s hs => h s (List.mem_cons_of_mem t hs)
      cases ts with
      | nil => exact ht
      | cons t' ts => exact ht.append (hts.cons (by decide))

theorem printable_arrayText {entries : List Text} (h : ∀ t ∈ entries, Printable t) :
    Printable (arrayText false entries) :=
  .cons (by decide) ((printable_entriesText h).append (.cons (by decide) printable_nil))

theorem printable_memberText {p : Text × Text} (hname : Printable p.1) (hentry : Printable p.2)
    (depth : Nat) (last : Bool) : Printable (memberText false depth last p) := by
  have hcomma : Printable (if last then [] else [comma]) := by
    split
    · exact printable_nil
    · exact .cons (by decide) printable_nil
  exact printable_nil.append (hname.append (.cons (by decide) (printable_nil.append
    (hentry.append (hcomma.append printable_nil)))))

theorem printable_membersText {members : List (Text × Text)} (depth : Nat)
    (h : ∀ p ∈ members, Printable p.1 ∧ Printable p.2) :
    Printable (membersText false depth members) := by
  induction members with
  | nil => exact printable_nil
  | cons p ps ih =>
      obtain ⟨hname, hentry⟩ := h p List.mem_cons_self
      exact (printable_memberText hname hentry depth _).append
        (ih fun q hq => h q (List.mem_cons_of_mem p hq))

theorem printable_objectText {members : List (Text × Text)} (depth : Nat)
    (h : ∀ p ∈ members, Printable p.1 ∧ Printable p.2) :
    Printable (objectText false depth members) :=
  .cons (by decide) (printable_nil.append ((printable_membersText depth h).append
    (printable_nil.append (.cons (by decide) printable_nil))))

/-! ## Results -/

/-- A result that is a text is one line. -/
def Printed.Line (out : Printed) : Prop := ∀ t, out = .text t → Printable t

theorem line_text {t : Text} (ht : Printable t) : (Printed.text t).Line := by
  rintro _ ⟨⟩
  exact ht

theorem line_null : Printed.null.Line := fun _ h => Printed.noConfusion h

theorem line_fault : Printed.fault.Line := fun _ h => Printed.noConfusion h

theorem line_ite {out : Printed} (h : out.Line) (p : Prop) [Decidable p] :
    (if p then out else .null).Line := by
  split
  · exact h
  · exact line_null

theorem line_allocated {t : Text} (ht : Printable t) (grants fits : Prop) [Decidable grants]
    [Decidable fits] :
    (if fits then if grants then Printed.text t else .null else .fault).Line := by
  split
  · exact line_ite (line_text ht) _
  · exact line_fault

theorem line_strdupText {grants : Nat → Bool} {t : Text} (ht : Printable t) :
    (strdupText grants t).Line :=
  line_ite (line_text ht) _

theorem line_printStringPtr (grants : Nat → Bool) (str : Option Text) :
    (printStringPtr grants str).Line := by
  rw [printStringPtr_eq]
  exact line_allocated (printable_stringText str) _ _

theorem mem_of_collectEntries {results : List Printed} {entries : List Text}
    (h : collectEntries results = .ok entries) : ∀ t ∈ entries, .text t ∈ results := by
  induction results generalizing entries with
  | nil =>
      cases h
      exact fun t ht => absurd ht List.not_mem_nil
  | cons r rs ih =>
      cases r with
      | null => cases h
      | fault => cases h
      | text s =>
          rw [collectEntries] at h
          cases hrest : collectEntries rs with
          | error r =>
              rw [hrest] at h
              cases h
          | ok ts =>
              rw [hrest] at h
              cases h
              intro t ht
              rcases List.mem_cons.mp ht with rfl | ht
              · exact List.mem_cons_self
              · exact List.mem_cons_of_mem _ (ih hrest t ht)

theorem line_of_collectEntries {results : List Printed} {r : Printed}
    (h : collectEntries results = .error r) : r.Line := by
  induction results with
  | nil => cases h
  | cons r' rs ih =>
      cases r' with
      | null =>
          cases h
          exact line_null
      | fault =>
          cases h
          exact line_fault
      | text s =>
          rw [collectEntries] at h
          cases hrest : collectEntries rs with
          | error r'' =>
              rw [hrest] at h
              cases h
              exact ih hrest
          | ok ts =>
              rw [hrest] at h
              cases h

theorem mem_of_collectMembers {results : List (Printed × Printed)} {members : List (Text × Text)}
    (h : collectMembers results = .ok members) :
    ∀ p ∈ members, (.text p.1, .text p.2) ∈ results := by
  induction results generalizing members with
  | nil =>
      cases h
      exact fun p hp => absurd hp List.not_mem_nil
  | cons r rs ih =>
      obtain ⟨name, entry⟩ := r
      cases hrest : collectMembers rs with
      | error r =>
          cases name <;> cases entry <;> simp only [collectMembers, hrest] at h <;>
            first | cases h | (split at h <;> cases h)
      | ok ps =>
          cases name <;> cases entry <;> simp only [collectMembers, hrest] at h <;> cases h
          intro p hp
          rcases List.mem_cons.mp hp with rfl | hp
          · exact List.mem_cons_self
          · exact List.mem_cons_of_mem _ (ih hrest p hp)

theorem line_of_collectMembers {results : List (Printed × Printed)} {r : Printed}
    (h : collectMembers results = .error r) : r.Line := by
  have hcases : r = .null ∨ r = .fault := by
    induction results generalizing r with
    | nil => cases h
    | cons r' rs ih =>
        obtain ⟨name, entry⟩ := r'
        cases hrest : collectMembers rs with
        | error r'' =>
            have hrest' := ih hrest
            cases name <;> cases entry <;> simp only [collectMembers, hrest, Except.map] at h <;>
              grind
        | ok ps =>
            cases name <;> cases entry <;> simp only [collectMembers, hrest, Except.map] at h <;>
              grind
  rcases hcases with rfl | rfl
  · exact line_null
  · exact line_fault

section Calls

variable {env : Libc} {grants : Nat → Bool} {depth : Nat} {item : Item}
  {calls : List (Printed × Item × Json)}

theorem line_printArray (h : ∀ c ∈ calls, c.1.Line) :
    (printArray grants false (calls.map Prod.fst)).Line := by
  rw [printArray]
  split
  · exact line_fault
  · split
    · cases hentries : collectEntries (calls.map Prod.fst) with
      | error r =>
          exact line_of_collectEntries hentries
      | ok entries =>
          show (allocate _ _ _).Line
          rw [allocate_array]
          apply line_allocated
          apply printable_arrayText
          intro t ht
          obtain ⟨c, hc, heq⟩ := List.mem_map.mp (mem_of_collectEntries hentries t ht)
          exact h c hc t heq
    · exact line_null

theorem line_printObject (h : ∀ c ∈ calls, c.1.Line) :
    (printObject grants false depth (memberResults grants calls)).Line := by
  rw [printObject]
  split
  · exact line_fault
  · split
    · cases hmembers : collectMembers (memberResults grants calls) with
      | error r => exact line_of_collectMembers hmembers
      | ok members =>
          show (allocate _ _ _).Line
          rw [allocate_object]
          apply line_allocated
          apply printable_objectText
          intro p hp
          obtain ⟨c, hc, heq⟩ := List.mem_map.mp (mem_of_collectMembers hmembers p hp)
          injection heq with hname hentry
          exact ⟨line_printStringPtr _ _ _ hname, h c hc _ hentry⟩
    · exact line_null

/-- A call without `fmt` writes one line. -/
theorem line_freshResult (hnan : Printable env.nanText) (h : ∀ c ∈ calls, c.1.Line) :
    (freshResult env grants false depth item calls).Line := by
  have hconst : ∀ t ∈ ([[110, 117, 108, 108], [102, 97, 108, 115, 101], [116, 114, 117, 101]] :
      List Text), Printable t := by
    decide
  rw [freshResult]
  cases item.type with
  | null => exact line_strdupText (hconst _ (by decide))
  | false => exact line_strdupText (hconst _ (by decide))
  | true => exact line_strdupText (hconst _ (by decide))
  | number => exact line_ite (line_text (printable_printNumber hnan item)) _
  | string => exact line_printStringPtr grants item.valuestring
  | array => exact line_printArray h
  | object => exact line_printObject h

end Calls

/-! ## What the items bring along -/

/-- A text of an earlier call without `fmt` is one line. -/
def TidyItem (item : Item) : Prop :=
  item.printFmt = false → ∀ t, item.printOut = some t → Printable t

/-- The texts of earlier calls without `fmt` are lines. -/
def Tidy : Json → Prop
  | nil => True
  | node item child next => TidyItem item ∧ Tidy child ∧ Tidy next

/-- A call leaves a tidy item behind and, without `fmt`, comes to a line. -/
structure TidyCall (fmt : Bool) (c : Printed × Item × Json) : Prop where
  line : fmt = false → c.1.Line
  item : TidyItem c.2.1
  child : Tidy c.2.2

theorem tidy_visited {chain : Json} {calls : List (Item × Json)} (h : Tidy chain)
    (hcalls : ∀ c ∈ calls, TidyItem c.1 ∧ Tidy c.2) : Tidy (visited chain calls) := by
  induction chain generalizing calls with
  | nil => cases calls <;> exact h
  | node item child next _ ih =>
      cases calls with
      | nil => exact h
      | cons c calls =>
          obtain ⟨hitem, hchild⟩ := hcalls c List.mem_cons_self
          exact ⟨hitem, hchild, ih h.2.2 fun d hd => hcalls d (List.mem_cons_of_mem c hd)⟩

theorem mem_upToFailure {calls : List (Printed × Item × Json)} {x : Item × Json}
    (h : x ∈ upToFailure calls) : x ∈ calls.map Prod.snd := by
  induction calls with
  | nil => exact h
  | cons c calls ih =>
      obtain ⟨out, y⟩ := c
      cases out with
      | text t =>
          rcases List.mem_cons.mp h with rfl | h
          · exact List.mem_cons_self
          · exact List.mem_cons_of_mem _ (ih h)
      | null =>
          rw [List.mem_singleton.mp h]
          exact List.mem_cons_self
      | fault =>
          rw [List.mem_singleton.mp h]
          exact List.mem_cons_self

section Items

variable {env : Libc} {grants : Nat → Bool} {fmt : Bool} {depth : Nat} {item : Item} {child : Json}
  {calls : List (Printed × Item × Json)}

theorem printItem_item : (printItem env grants fmt depth item child calls).2.1
    = match cached fmt item with
      | some _ => item
      | none => { item with
          printOut := (freshResult env grants fmt depth item calls).text?, printFmt := fmt } := by
  rw [printItem]
  cases cached fmt item with
  | some t => rfl
  | none =>
      rw [freshResult]
      cases item.type <;> rfl

theorem tidy_child (h : Tidy child) (hcalls : ∀ c ∈ calls, TidyCall fmt c) :
    Tidy (printItem env grants fmt depth item child calls).2.2 := by
  have hall : Tidy (visited child (calls.map Prod.snd)) := by
    apply tidy_visited h
    intro c hc
    obtain ⟨d, hd, rfl⟩ := List.mem_map.mp hc
    exact ⟨(hcalls d hd).item, (hcalls d hd).child⟩
  have hsome : Tidy (visited child (upToFailure calls)) := by
    apply tidy_visited h
    intro c hc
    obtain ⟨d, hd, rfl⟩ := List.mem_map.mp (mem_upToFailure hc)
    exact ⟨(hcalls d hd).item, (hcalls d hd).child⟩
  rw [printItem]
  cases cached fmt item with
  | some t => exact h
  | none =>
    cases item.type with
    | array =>
        dsimp only
        split
        · exact hsome
        · exact h
    | object =>
        dsimp only
        split
        · exact hall
        · exact h
    | _ => exact h

/-- A call keeps a tidy tree tidy. -/
theorem tidy_printItem (hnan : Printable env.nanText) (hitem : TidyItem item) (hchild : Tidy child)
    (hcalls : ∀ c ∈ calls, TidyCall fmt c) :
    TidyCall fmt (printItem env grants fmt depth item child calls) := by
  have hfresh : fmt = false → (freshResult env grants fmt depth item calls).Line := by
    rintro rfl
    exact line_freshResult hnan fun c hc => (hcalls c hc).line rfl
  constructor
  · rintro rfl
    rw [printItem_fst]
    cases hcached : cached false item with
    | some t =>
        rw [cached] at hcached
        split at hcached
        · next hfmt => exact line_text (hitem hfmt t hcached)
        · cases hcached
    | none => exact hfresh rfl
  · rw [printItem_item]
    cases cached fmt item with
    | some t => exact hitem
    | none =>
        intro hfmt t ht
        apply hfresh hfmt t
        cases hout : freshResult env grants fmt depth item calls with
        | text s =>
            rw [hout] at ht
            injection ht with hts
            rw [hts]
        | null =>
            rw [hout] at ht
            cases ht
        | fault =>
            rw [hout] at ht
            cases ht
  · exact tidy_child hchild hcalls

end Items

theorem tidy_printChain {env : Libc} {grants : Nat → Bool} {fmt : Bool}
    (hnan : Printable env.nanText) (chain : Json) (depth : Nat) (h : Tidy chain) :
    ∀ c ∈ printChain env grants fmt depth chain, TidyCall fmt c := by
  induction chain generalizing depth with
  | nil => exact fun c hc => absurd hc List.not_mem_nil
  | node item child next ihchild ihnext =>
      obtain ⟨hitem, hchild, hnext⟩ := h
      intro c hc
      rcases List.mem_cons.mp hc with rfl | hc
      · exact tidy_printItem hnan hitem hchild (ihchild (depth + 1) hchild)
      · exact ihnext depth hnext c hc

/-- `print_value` without `fmt` writes one line, and leaves a tidy tree behind. -/
theorem printValue_tidy {env : Libc} {grants : Nat → Bool} {fmt : Bool} {value : Json}
    (hnan : Printable env.nanText) (h : Tidy value) :
    (fmt = false → (printValue env grants fmt value).1.Line) ∧
      Tidy (printValue env grants fmt value).2 := by
  cases value with
  | nil => exact ⟨fun _ => line_null, trivial⟩
  | node item child next =>
      obtain ⟨hitem, hchild, hnext⟩ := h
      have hcall : TidyCall fmt (printItem env grants fmt 0 item child
          (printChain env grants fmt 1 child)) :=
        tidy_printItem hnan hitem hchild (tidy_printChain hnan child 1 hchild)
      exact ⟨hcall.line, hcall.item, hcall.child, hnext⟩

/-! ## What the API does to a tree -/

/-- A tree that the API has worked on: nodes are new and have no text yet, their links and
values change without a look at their texts, and they are printed in either mode. -/
inductive Built (env : Libc) : Json → Prop
  | nil : Built env nil
  | new {item : Item} {child next : Json} (hnew : item.printOut = none) (hchild : Built env child)
      (hnext : Built env next) : Built env (node item child next)
  | change {item item' : Item} {child child' next next' : Json}
      (hout : item'.printOut = item.printOut) (hfmt : item'.printFmt = item.printFmt)
      (h : Built env (node item child next)) (hchild : Built env child') (hnext : Built env next') :
      Built env (node item' child' next')
  | print {value : Json} (grants : Nat → Bool) (fmt : Bool) (h : Built env value) :
      Built env (printValue env grants fmt value).2

/-- Whatever was printed before, the tree is tidy. -/
theorem Built.tidy {env : Libc} (hnan : Printable env.nanText) {value : Json}
    (h : Built env value) : Tidy value := by
  induction h with
  | nil => trivial
  | new hnew _ _ ihchild ihnext =>
      refine ⟨?_, ihchild, ihnext⟩
      intro _ t ht
      rw [hnew] at ht
      cases ht
  | change hout hfmt _ _ _ ih ihchild ihnext =>
      refine ⟨?_, ihchild, ihnext⟩
      intro hf t ht
      rw [hfmt] at hf
      rw [hout] at ht
      exact ih.1 hf t ht
  | print grants fmt _ ih => exact (printValue_tidy hnan ih).2

end Libubox.Json.Printer
