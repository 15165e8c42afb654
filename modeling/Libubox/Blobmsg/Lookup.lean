import Mathlib.Data.List.Find
import Libubox.Blobmsg.Message
import Libubox.Blobmsg.Parse
import Libubox.Blobmsg.RoundTrip

/-!
# Looking up members

What `blobmsg_parse` finds in a well-formed message: for each entry of the policy
the first member with its name and type.  `pslen` is an array of bytes, so that an
entry whose name has 256 characters or more finds nothing (`blobmsgParse_holds`).
-/

namespace Libubox.Blobmsg

open Bytes Blob

/-! ## Members and their places -/

def Element.name : Element → Mem
  | .data _ name _ => name
  | .nest _ name _ => name

def Element.type : Element → Nat
  | .data type _ _ => type
  | .nest array _ _ => containerType array

/-- The members with the memory from each of them on. -/
def places : List Element → Mem → List (Element × Mem)
  | [], _ => []
  | e :: es, m => (e, m) :: places es (m.drop e.size)

/-- A member that an entry of the policy asks for. -/
def Wanted (entry : BlobmsgPolicy) (e : Element) : Prop :=
  entry.name = some e.name ∧ (entry.type = blobmsgTypeUnspec ∨ e.type = entry.type)

instance (entry : BlobmsgPolicy) (e : Element) : Decidable (Wanted entry e) :=
  inferInstanceAs (Decidable (_ ∧ _))

/-- The first member that is asked for. -/
def firstWanted (entry : BlobmsgPolicy) (ps : List (Element × Mem)) : Option Mem :=
  (ps.find? fun p => Wanted entry p.1).map Prod.snd

/-- A member that `blobmsg_parse` gives an entry. -/
def Found (entry : BlobmsgPolicy) (e : Element) : Prop := Wanted entry e ∧ e.name.length < 2 ^ 8

instance (entry : BlobmsgPolicy) (e : Element) : Decidable (Found entry e) :=
  inferInstanceAs (Decidable (_ ∧ _))

def firstFound (entry : BlobmsgPolicy) (ps : List (Element × Mem)) : Option Mem :=
  (ps.find? fun p => Found entry p.1).map Prod.snd

/-- A C string that is not empty. -/
def IsName (entry : BlobmsgPolicy) : Prop := ∃ name, entry.name = some name ∧ name ≠ [] ∧ 0 ∉ name

/-! ## One attribute -/

/-- What the lookup reads of an attribute. -/
structure Reads (e : Element) (attr : Mem) : Prop where
  id : blobId attr = some e.type
  namelen : blobmsgNamelen (blobData attr) = some e.name.length
  name : ∃ rest, blobmsgName attr = e.name ++ 0 :: rest
  noNul : 0 ∉ e.name
  check : e.name ≠ [] → blobmsgCheckAttr attr true = some true

theorem reads_frame {type len : Nat} {name pad rest : Mem} (wf : WellFormed type name pad len)
    {e : Element} (hname : e.name = name) (htype : e.type = type)
    (hcheck : name ≠ [] → blobmsgCheckAttr (frame type name pad len ++ rest) true = some true) :
    Reads e (frame type name pad len ++ rest) := by
  obtain ⟨more, hmore⟩ := wf.name_fits.terminated
  refine ⟨?_, ?_, ⟨more ++ rest, ?_⟩, ?_, ?_⟩
  · rw [htype, wf.blobId_eq]
  · rw [hname, WellFormed.blobData_eq, blobmsgNamelen_nameHeader wf.name_fits]
  · rw [hname, WellFormed.blobmsgName_eq, hmore]
    rfl
  · rw [hname]
    exact wf.name_fits.noNul
  · rw [hname]
    exact hcheck

/-- The first member of a message. -/
theorem Holds.uncons {e : Element} {es : List Element} {bs : Mem} (h : Holds (e :: es) bs) :
    ∃ front tail, bs = front ++ tail ∧ Holds es tail ∧ front.length = e.size ∧ 4 ≤ front.length ∧
      ∀ rest, blobPadLen (front ++ rest) = some front.length ∧ Reads e (front ++ rest) := by
  cases h with
  | @data type name namePad data pad tail _ wf fits hpad htail =>
      have hle := le_alignUp_four data.length
      have hlength : (frame type name namePad data.length ++ (data ++ pad)).length
          = 4 + blobmsgHdrlen name.length + alignUp 4 data.length := by
        rw [List.length_append, frame_length wf.name_fits, List.length_append]
        omega
      refine ⟨_, tail, rfl, htail, hlength, by omega, fun rest => ⟨?_, ?_⟩⟩
      · rw [hlength, List.append_assoc, wf.blobPadLen_eq]
      · rw [List.append_assoc, List.append_assoc]
        exact reads_frame wf rfl rfl fun hname => wf.blobmsgCheckAttr_data (fun _ => hname) fits
  | @nest array name namePad body tail children _ wf inner htail =>
      have hlength : (frame (containerType array) name namePad body.length ++ body).length
          = 4 + blobmsgHdrlen name.length + body.length := by
        rw [List.length_append, frame_length wf.name_fits]
      refine ⟨_, tail, rfl, htail, ?_, by omega, fun rest => ⟨?_, ?_⟩⟩
      · rw [hlength, inner.length_eq]
        rfl
      · rw [hlength, List.append_assoc, wf.blobPadLen_eq, alignUp_four_of_mod inner.length_mod]
      · rw [List.append_assoc]
        exact reads_frame wf rfl rfl fun hname =>
          wf.blobmsgCheckAttr_container (fun _ => hname) (isContainer_containerType array)

/-- The bytes of the first member. -/
theorem Holds.cut {e : Element} {es : List Element} {bs : Mem} (h : Holds (e :: es) bs) :
    ∃ front tail, bs = front ++ tail ∧ Holds [e] front ∧ Holds es tail := by
  cases h with
  | data wf fits hpad htail =>
      exact ⟨_, _, rfl, by simpa using Holds.data wf fits hpad .nil, htail⟩
  | nest wf inner htail =>
      exact ⟨_, _, rfl, by simpa using Holds.nest wf inner .nil, htail⟩

/-- The bytes of the first members. -/
theorem Holds.split {es fs : List Element} {bs : Mem} (h : Holds (es ++ fs) bs) :
    ∃ front tail, bs = front ++ tail ∧ Holds es front ∧ Holds fs tail := by
  induction es generalizing bs with
  | nil => exact ⟨[], bs, rfl, .nil, h⟩
  | cons e es ih =>
      obtain ⟨first, rest, rfl, hfirst, hrest⟩ := h.cut
      obtain ⟨front, tail, rfl, hfront, htail⟩ := ih hrest
      exact ⟨first ++ front, tail, (List.append_assoc _ _ _).symm, hfirst.append hfront, htail⟩

/-- The bytes of one member. -/
theorem Holds.alone {e : Element} {front : Mem} (h : Holds [e] front) :
    4 ≤ front.length ∧
      ∀ rest, blobPadLen (front ++ rest) = some front.length ∧ Reads e (front ++ rest) := by
  obtain ⟨front', tail, rfl, htail, -, hpos, hreads⟩ := h.uncons
  cases htail
  rw [List.append_nil]
  exact ⟨hpos, hreads⟩

/-- An element of an array passes its check. -/
theorem Holds.check {e : Element} {front : Mem} (h : Holds [e] front) (rest : Mem) :
    blobmsgCheckAttr (front ++ rest) false = some true := by
  cases h with
  | data wf fits hpad htail =>
      rw [List.append_assoc, List.append_assoc, List.append_assoc]
      exact wf.blobmsgCheckAttr_data (by simp) fits
  | nest wf inner htail =>
      rw [List.append_assoc, List.append_assoc]
      exact wf.blobmsgCheckAttr_container (by simp) (isContainer_containerType _)

theorem Holds.blobId_eq {e : Element} {front : Mem} (h : Holds [e] front) (rest : Mem) :
    blobId (front ++ rest) = some e.type :=
  (h.alone.2 rest).2.id

/-- A table or an array: its frame and the bytes of its elements. -/
theorem Holds.nest_eq {array : Bool} {name bs : Mem} {children : List Element}
    (h : Holds [.nest array name children] bs) :
    ∃ namePad inner, WellFormed (containerType array) name namePad inner.length ∧
      Holds children inner ∧
      bs = frame (containerType array) name namePad inner.length ++ inner := by
  cases h with
  | nest wf inner htail =>
      cases htail
      exact ⟨_, _, wf, inner, List.append_nil _⟩

theorem Holds.nest_of_type {e : Element} {bs : Mem} {array : Bool} (h : Holds [e] bs)
    (he : e.type = containerType array) : ∃ name children, e = .nest array name children := by
  cases h with
  | @data type _ _ _ _ _ _ wf fits hpad htail =>
      have htype : type = containerType array := he
      rw [htype] at fits
      exact absurd (isContainer_containerType array) fits.not_container
  | @nest array' name _ _ _ children _ wf inner htail =>
      have htype : containerType array' = containerType array := he
      obtain rfl : array' = array := by
        rw [← containerType_eq_array array', htype, containerType_eq_array]
      exact ⟨name, children, rfl⟩

theorem strcmpEq_cString {s t : Mem} (hs : 0 ∉ s) (ht : 0 ∉ t) (rest : Mem) :
    strcmpEq s (t ++ 0 :: rest) = some (decide (s = t)) := by
  induction s generalizing t with
  | nil =>
      cases t with
      | nil => rfl
      | cons c t =>
          rw [List.mem_cons, not_or] at ht
          simp [strcmpEq, Ne.symm ht.1]
  | cons a s ih =>
      rw [List.mem_cons, not_or] at hs
      cases t with
      | nil => simp [strcmpEq, Ne.symm hs.1]
      | cons c t =>
          rw [List.mem_cons, not_or] at ht
          rw [List.cons_append, strcmpEq]
          by_cases hac : a = c
          · rw [if_pos hac, if_neg (Ne.symm hs.1), ih hs.2 ht.2, hac]
            simp
          · rw [if_neg hac]
            simp [hac]

/-- **One turn of the inner loop**: an entry without an attribute yet takes this one if it is found. -/
theorem parseEntry_reads {e : Element} {attr : Mem} (h : Reads e attr) (hname : e.name ≠ [])
    {entry : BlobmsgPolicy} (hentry : IsName entry) (slot : Option Mem) :
    parseEntry attr entry slot
      = some (some (slot.or (if Found entry e then some attr else none))) := by
  obtain ⟨name, hentryName, -, hnoNul⟩ := hentry
  obtain ⟨rest, hrest⟩ := h.name
  have hwanted : Wanted entry e ↔ name = e.name ∧
      (entry.type = blobmsgTypeUnspec ∨ e.type = entry.type) := by
    rw [Wanted, hentryName, Option.some.injEq]
  simp only [parseEntry, hentryName, h.id, Option.bind_some]
  by_cases htype : entry.type ≠ blobmsgTypeUnspec ∧ e.type ≠ entry.type
  · have hnot : ¬Found entry e := by
      rintro ⟨hw, -⟩
      rcases (hwanted.mp hw).2 with h₁ | h₁
      · exact htype.1 h₁
      · exact htype.2 h₁
    rw [if_pos htype, if_neg hnot, Option.or_none]
  · rw [if_neg htype, h.namelen, Option.bind_some]
    by_cases hlen : e.name.length ≠ name.length % 2 ^ 8
    · have hnot : ¬Found entry e := by
        rintro ⟨hw, hlt⟩
        rw [(hwanted.mp hw).1, Nat.mod_eq_of_lt hlt] at hlen
        exact hlen rfl
      rw [if_pos hlen, if_neg hnot, Option.or_none]
    · rw [if_neg hlen, h.check hname, Option.bind_some, if_pos rfl]
      cases slot with
      | some a => rfl
      | none =>
          rw [if_neg (by simp), hrest, strcmpEq_cString hnoNul h.noNul, Option.map_some]
          have hfound : Found entry e ↔ name = e.name := by
            rw [Found, hwanted]
            constructor
            · exact fun hall => hall.1.1
            · intro heq
              refine ⟨⟨heq, ?_⟩, ?_⟩
              · by_contra hboth
                rw [not_or] at hboth
                exact htype hboth
              · have := Nat.mod_lt name.length (show 0 < 2 ^ 8 by decide)
                omega
          simp [hfound]

theorem parseEntries_reads {e : Element} {attr : Mem} (h : Reads e attr) (hname : e.name ≠ [])
    {entries : List (BlobmsgPolicy × Option Mem)} (hentries : ∀ p ∈ entries, IsName p.1) :
    parseEntries attr entries = some (true,
      entries.map fun p => p.2.or (if Found p.1 e then some attr else none)) := by
  induction entries with
  | nil => rfl
  | cons p entries ih =>
      rw [parseEntries, parseEntry_reads h hname (hentries p List.mem_cons_self), Option.bind_some]
      simp only [ih fun q hq => hentries q (List.mem_cons_of_mem p hq), Option.map_some,
        List.map_cons]

/-! ## The message -/

theorem map_zip_map {α β γ : Type} (l : List α) (f : α → β) (g : α × β → γ) :
    (l.zip (l.map f)).map g = l.map fun a => g (a, f a) := by
  induction l with
  | nil => rfl
  | cons a l ih => rw [List.map_cons, List.zip_cons_cons, List.map_cons, ih, List.map_cons]

/-- The loop, with what it has found so far. -/
theorem forEachAttr_parse {policy : List BlobmsgPolicy} (hpolicy : ∀ p ∈ policy, IsName p)
    {es : List Element} {bs : Mem} (h : Holds es bs) (hnames : ∀ e ∈ es, e.name ≠ [])
    {fuel : Nat} (hfuel : bs.length ≤ fuel) (found : BlobmsgPolicy → Option Mem) :
    forEachAttr (parseBody policy) fuel bs bs.length (true, policy.map found)
      = some (true, policy.map fun p => (found p).or (firstFound p (places es bs))) := by
  induction es generalizing bs fuel found with
  | nil =>
      cases h
      have hnone : (fun p : BlobmsgPolicy => (found p).or (firstFound p (places [] []))) = found := by
        funext p
        exact Option.or_none
      rw [hnone]
      cases fuel <;> simp [forEachAttr]
  | cons e es ih =>
      obtain ⟨front, tail, rfl, htail, hsize, hpos, hfront⟩ := h.uncons
      obtain ⟨hpad, hreads⟩ := hfront tail
      rw [List.length_append] at hfuel
      obtain ⟨fuel, rfl⟩ : ∃ k, fuel = k + 1 := ⟨fuel - 1, by omega⟩
      have hzip : ∀ p ∈ policy.zip (policy.map found), IsName p.1 := by
        intro p hp
        exact hpolicy p.1 (List.of_mem_zip hp).1
      have hmap : (policy.zip (policy.map found)).map
            (fun p => p.2.or (if Found p.1 e then some (front ++ tail) else none))
          = policy.map fun p => (found p).or (if Found p e then some (front ++ tail) else none) := by
        exact map_zip_map policy found _
      have hbody : parseBody policy (true, policy.map found) (front ++ tail)
          = some (.next (true,
            policy.map fun p => (found p).or (if Found p e then some (front ++ tail) else none))) := by
        rw [parseBody, parseEntries_reads hreads (hnames e List.mem_cons_self) hzip, hmap]
        rfl
      have hsub : (front ++ tail).length - front.length = tail.length := by
        rw [List.length_append, Nat.add_sub_cancel_left]
      rw [forEachAttr, if_neg (by rw [List.length_append]; omega), hpad, Option.bind_some,
        if_pos ⟨by rw [List.length_append]; omega, hpos⟩, hbody, Option.bind_some, Flow.andThen,
        List.drop_left, hsub,
        ih htail (fun e' he' => hnames e' (List.mem_cons_of_mem e he')) (by omega)]
      have hplaces : places (e :: es) (front ++ tail) = (e, front ++ tail) :: places es tail := by
        rw [places, ← hsize, List.drop_left]
      rw [hplaces]
      congr 3
      funext p
      rw [Option.or_assoc]
      congr 1
      rw [firstFound, firstFound, List.find?_cons]
      by_cases hf : Found p e
      · simp [hf]
      · simp [hf]

theorem blobmsgParse_holds {policy : List BlobmsgPolicy} (hpolicy : ∀ p ∈ policy, IsName p)
    {es : List Element} {bs : Mem} (h : Holds es bs) (hnames : ∀ e ∈ es, e.name ≠ []) :
    blobmsgParse policy bs = some (true, policy.map fun p => firstFound p (places es bs)) := by
  have hloop := forEachAttr_parse hpolicy h hnames (Nat.le_refl bs.length) fun _ => none
  rw [blobmsgParse, ← List.map_const']
  exact hloop

theorem places_fst (es : List Element) : ∀ m : Mem, (places es m).map Prod.fst = es := by
  induction es with
  | nil =>
      intro m
      rfl
  | cons e es ih =>
      intro m
      rw [places, List.map_cons, ih]

theorem exists_places {es : List Element} {e : Element} (he : e ∈ es) (m : Mem) :
    ∃ p ∈ places es m, p.1 = e := by
  rw [← places_fst es m, List.mem_map] at he
  exact he

/-- An entry misses what it asks for exactly when the name does not fit the length table. -/
theorem firstFound_eq_iff (entry : BlobmsgPolicy) (es : List Element) (m : Mem) :
    firstFound entry (places es m) = firstWanted entry (places es m)
      ↔ ∀ e ∈ es, Wanted entry e → e.name.length < 2 ^ 8 := by
  constructor
  · intro heq e he hw
    by_contra hlong
    have hnone : firstFound entry (places es m) = none := by
      rw [firstFound, Option.map_eq_none_iff, List.find?_eq_none]
      intro p _ hfound
      rw [decide_eq_true_eq] at hfound
      have hname : p.1.name = e.name :=
        Option.some.inj (hfound.1.1.symm.trans hw.1)
      exact hlong (hname ▸ hfound.2)
    obtain ⟨p, hp, rfl⟩ := exists_places he m
    rw [hnone, firstWanted, eq_comm, Option.map_eq_none_iff, List.find?_eq_none] at heq
    exact heq p hp (decide_eq_true hw)
  · intro hshort
    have hsame : ∀ p ∈ places es m, (Found entry p.1 ↔ Wanted entry p.1) := by
      intro p hp
      have he : p.1 ∈ es := by
        rw [← places_fst es m]
        exact List.mem_map_of_mem hp
      exact ⟨And.left, fun hw => ⟨hw, hshort p.1 he hw⟩⟩
    have hcongr : ((places es m).find? fun p => Found entry p.1)
        = (places es m).find? fun p => Wanted entry p.1 :=
      List.find?_congr fun p hp => decide_eq_decide.mpr (hsame p hp)
    rw [firstFound, firstWanted, hcongr]

/-- `blobmsg_parse` gives every entry the first member it asks for, exactly when no
member that is asked for has a name of 256 characters or more. -/
theorem blobmsgParse_first_iff {policy : List BlobmsgPolicy} (hpolicy : ∀ p ∈ policy, IsName p)
    {es : List Element} {bs : Mem} (h : Holds es bs) (hnames : ∀ e ∈ es, e.name ≠ []) :
    blobmsgParse policy bs = some (true, policy.map fun p => firstWanted p (places es bs))
      ↔ ∀ p ∈ policy, ∀ e ∈ es, Wanted p e → e.name.length < 2 ^ 8 := by
  rw [blobmsgParse_holds hpolicy h hnames, Option.some.injEq, Prod.mk.injEq, List.map_inj_left]
  constructor
  · intro hall p hp
    exact (firstFound_eq_iff p es bs).mp (hall.2 p hp)
  · intro hall
    exact ⟨rfl, fun p hp => (firstFound_eq_iff p es bs).mpr (hall p hp)⟩

theorem holds_one {name : Mem} (hname : NameOk name) :
    Holds [.data blobmsgTypeInt8 name [1]] (fieldBytes blobmsgTypeInt8 name [1]) := by
  have hfits := hname.fits
  have hshort := hname.short
  have hhdrlen := blobmsgHdrlen_le name.length
  refine holds_fieldBytes (by decide) hname (by simp [DataFits]) ?_
  rw [fieldBytes_length hname, List.length_singleton, show alignUp 4 1 = 4 from rfl]
  omega

/-- One member and three entries: by name, with another type, with its own type. -/
theorem blobmsgParse_first_x :
    blobmsgParse [⟨some [120], 0⟩, ⟨some [120], 5⟩, ⟨some [120], 7⟩]
        (fieldBytes blobmsgTypeInt8 [120] [1])
      = some (true, [some (fieldBytes blobmsgTypeInt8 [120] [1]), none,
          some (fieldBytes blobmsgTypeInt8 [120] [1])]) :=
  (blobmsgParse_first_iff (by simp [IsName]) (holds_one ⟨by decide, by decide⟩)
    (by simp [Element.name])).mpr (by simp [Element.name])

theorem blobmsgParse_long {name : Mem} (hname : NameOk name) (hlong : 2 ^ 8 ≤ name.length) :
    blobmsgParse [⟨some name, blobmsgTypeInt8⟩] (fieldBytes blobmsgTypeInt8 name [1])
      = some (true, [none]) := by
  have hne : name ≠ [] := by
    intro h
    rw [h] at hlong
    exact absurd hlong (by decide)
  rw [blobmsgParse_holds (by simp [IsName, hne, hname.noNul]) (holds_one hname)
    (by simp [Element.name, hne])]
  have hnot : ¬Found ⟨some name, blobmsgTypeInt8⟩ (.data blobmsgTypeInt8 name [1]) :=
    fun hfound => absurd hfound.2 (Nat.not_lt.mpr hlong)
  simp [firstFound, places, hnot]

/-- A member whose name has 256 characters is not found under that name. -/
theorem blobmsgParse_misses :
    ∃ name bs, Holds [.data blobmsgTypeInt8 name [1]] bs ∧
      IsName ⟨some name, blobmsgTypeInt8⟩ ∧
      blobmsgParse [⟨some name, blobmsgTypeInt8⟩] bs = some (true, [none]) ∧
      firstWanted ⟨some name, blobmsgTypeInt8⟩ (places [.data blobmsgTypeInt8 name [1]] bs)
        = some bs := by
  have hlength : (List.replicate 256 (97 : UInt8)).length = 256 := List.length_replicate
  have hmem : ∀ c ∈ List.replicate 256 (97 : UInt8), c = 97 := fun c => List.eq_of_mem_replicate
  generalize List.replicate 256 (97 : UInt8) = name at hlength hmem
  have hname : NameOk name :=
    ⟨by rw [hlength]; decide, fun h => absurd (hmem 0 h) (by decide)⟩
  refine ⟨name, fieldBytes blobmsgTypeInt8 name [1], holds_one hname,
    ⟨name, rfl, ?_, hname.noNul⟩, blobmsgParse_long hname (by rw [hlength]; decide), ?_⟩
  · rintro rfl
    exact absurd hlength (by decide)
  · have hw : Wanted ⟨some name, blobmsgTypeInt8⟩ (.data blobmsgTypeInt8 name [1]) :=
      ⟨rfl, .inr rfl⟩
    simp [firstWanted, places, hw]

end Libubox.Blobmsg
