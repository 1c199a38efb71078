import JvmRelocation.ClassFile.AnnotationTree
import JvmRelocation.Proofs.ClassFile.Codec
import JvmRelocation.Proofs.ClassFile.Reindexing

/-!
# Walking annotations

Cutting a body into parts and writing trees belong together: every written tree is cut, with the
mentions of the tree, and whatever is cut is a written tree. This is checked production by
production, as for codecs.
-/

namespace JvmRelocation

open Decoder BigEndian

namespace Layout

/-! ## Walks -/

theorem mentionsAt_append (offset : Nat) (l l' : Layout) :
    mentionsAt offset (l ++ l') =
      mentionsAt offset l ++ mentionsAt (offset + (toBytes l).length) l' := by
  induction l generalizing offset with
  | nil => rfl
  | cons part l ih =>
    cases part with
    | plain bytes =>
      simp only [List.cons_append, mentionsAt, ih, toBytes_cons, BodyPart.toBytes,
        List.length_append, Nat.add_assoc]
    | index use value =>
      simp only [List.cons_append, mentionsAt, ih, toBytes_cons, BodyPart.toBytes,
        List.length_append, length_bytes16, Nat.add_assoc]

/-- A walk cuts what is written of the values with property `Valid`, finds the mentions that `found`
tells for the place where the value starts, and cuts nothing else. What is written tells where it
ends. -/
structure Walks {α : Type} (walk : Decoder Layout) (write : α → Bytes)
    (found : Nat → α → List Mention) (Valid : α → Prop) : Prop where
  /-- Every written value is cut, whatever stands behind it. -/
  complete : ∀ a, Valid a → ∀ offset rest, ∃ l,
    walk ⟨offset, write a ++ rest⟩ = .ok l ⟨offset + (write a).length, rest⟩ ∧
      toBytes l = write a ∧ ∀ start, mentionsAt start l = found start a
  /-- Whatever is cut is a written value. -/
  sound : ∀ c l c', walk c = .ok l c' →
    ∃ a, Valid a ∧ c.rest = write a ++ c'.rest ∧ c'.offset = c.offset + (write a).length
  /-- Bytes start with at most one written value. -/
  unique : ∀ a b rest rest', Valid a → Valid b → write a ++ rest = write b ++ rest' →
    a = b ∧ rest = rest'

namespace Walks

variable {α β : Type} {walk walk' : Decoder Layout} {write : α → Bytes} {write' : β → Bytes}
  {found : Nat → α → List Mention} {found' : Nat → β → List Mention} {Valid : α → Prop}
  {Valid' : β → Prop}

/-- A walk over values is one over what a function makes of them. -/
theorem map (h : Walks walk write found Valid) (f : α → β) (hwrite : ∀ a, write' (f a) = write a)
    (hfound : ∀ start a, found' start (f a) = found start a)
    (hvalid : ∀ b, Valid' b ↔ ∃ a, Valid a ∧ f a = b) : Walks walk write' found' Valid' where
  complete := by
    intro b hb offset rest
    obtain ⟨a, ha, rfl⟩ := (hvalid b).mp hb
    simp only [hwrite, hfound]
    exact h.complete a ha offset rest
  sound := by
    intro c l c' hwalk
    obtain ⟨a, ha, hrest, hoffset⟩ := h.sound c l c' hwalk
    rw [← hwrite] at hrest hoffset
    exact ⟨f a, (hvalid _).mpr ⟨a, ha, rfl⟩, hrest, hoffset⟩
  unique := by
    intro b₁ b₂ rest rest' h₁ h₂ heq
    obtain ⟨a₁, ha₁, rfl⟩ := (hvalid b₁).mp h₁
    obtain ⟨a₂, ha₂, rfl⟩ := (hvalid b₂).mp h₂
    rw [hwrite, hwrite] at heq
    obtain ⟨rfl, hrest⟩ := h.unique a₁ a₂ rest rest' ha₁ ha₂ heq
    exact ⟨rfl, hrest⟩

theorem unique_bytes16 (v v' : UInt16) (rest rest' : Bytes)
    (h : bytes16 v ++ rest = bytes16 v' ++ rest') : v = v' ∧ rest = rest' := by
  obtain ⟨hv, hrest⟩ := List.append_inj h rfl
  refine ⟨?_, hrest⟩
  rw [← word16_bytes16 v, ← word16_bytes16 v']
  simp only [bytes16, List.cons.injEq, and_true] at hv
  rw [hv.1, hv.2]

/-- The index of a text. -/
theorem index (use : IndexUse) :
    Walks (indexFor use) bytes16 (fun start i => [⟨start, i, use⟩]) fun _ => True where
  complete := by
    intro i _ offset rest
    refine ⟨[.index use i], ?_, rfl, fun _ => rfl⟩
    rw [indexFor, bind_of_ok (word16_codec.complete i trivial offset rest)]
    rfl
  sound := by
    intro c l c' h
    obtain ⟨i, hword, rfl⟩ := return_ok h
    obtain ⟨-, hrest, hoffset⟩ := word16_codec.sound _ _ _ hword
    exact ⟨i, trivial, hrest, hoffset⟩
  unique i i' rest rest' _ _ h := unique_bytes16 i i' rest rest' h

/-- The index of a constant that is no text. -/
theorem constant : Walks (skip 2) bytes16 (fun _ _ => []) fun _ => True where
  complete := by
    intro i _ offset rest
    refine ⟨[.plain (bytes16 i)], ?_, by simp [BodyPart.toBytes], fun _ => rfl⟩
    exact bind_of_ok (take_append (bytes16 i) offset rest)
  sound := by
    intro c l c' h
    obtain ⟨block, htake, rfl⟩ := return_ok h
    obtain ⟨hlength, hrest, hoffset⟩ := (take_codec 2).sound _ _ _ htake
    obtain ⟨a, b, rfl⟩ := List.length_eq_two.mp hlength
    refine ⟨word16 a b, trivial, ?_, hoffset⟩
    rw [bytes16_word16]
    exact hrest
  unique i i' rest rest' _ _ h := unique_bytes16 i i' rest rest' h

/-- One walk after another. -/
theorem pair (h : Walks walk write found Valid) (h' : Walks walk' write' found' Valid') :
    Walks (sequence [walk, walk']) (fun p : α × β => write p.1 ++ write' p.2)
      (fun start p => found start p.1 ++ found' (start + (write p.1).length) p.2)
      fun p => Valid p.1 ∧ Valid' p.2 where
  complete := by
    rintro ⟨a, b⟩ ⟨ha, hb⟩ offset rest
    obtain ⟨l, hl, hbytes, hfound⟩ := h.complete a ha offset (write' b ++ rest)
    obtain ⟨l', hl', hbytes', hfound'⟩ := h'.complete b hb (offset + (write a).length) rest
    refine ⟨l ++ l', ?_, by rw [toBytes_append, hbytes, hbytes'], fun start => ?_⟩
    · rw [List.append_assoc, List.length_append, ← Nat.add_assoc]
      exact (bind_of_ok hl).trans (bind_of_ok hl')
    · rw [mentionsAt_append, hbytes, hfound, hfound']
  sound := by
    intro c l c' hwalk
    obtain ⟨l₁, mid, h₁, hwalk⟩ := bind_ok hwalk
    obtain ⟨l₂, h₂, rfl⟩ := return_ok hwalk
    obtain ⟨a, ha, hrest, hoffset⟩ := h.sound _ _ _ h₁
    obtain ⟨b, hb, hrest', hoffset'⟩ := h'.sound _ _ _ h₂
    refine ⟨(a, b), ⟨ha, hb⟩, ?_, ?_⟩
    · rw [hrest, hrest', List.append_assoc]
    · rw [hoffset', hoffset, List.length_append, Nat.add_assoc]
  unique := by
    rintro ⟨a, b⟩ ⟨a₂, b₂⟩ rest rest' ⟨ha, hb⟩ ⟨ha₂, hb₂⟩ heq
    simp only [List.append_assoc] at heq
    obtain ⟨rfl, hbehind⟩ := h.unique _ _ _ _ ha ha₂ heq
    obtain ⟨rfl, hrest⟩ := h'.unique _ _ _ _ hb hb₂ hbehind
    exact ⟨rfl, hrest⟩

/-- What is found in values one after another, the first of which starts at `start`. -/
def inTurn (write : α → Bytes) (found : Nat → α → List Mention) (start : Nat) :
    List α → List Mention
  | [] => []
  | a :: rest => found start a ++ inTurn write found (start + (write a).length) rest

theorem timesFrom_complete (h : Walks walk write found Valid) (list : List α)
    (hvalid : ∀ a ∈ list, Valid a) (done : List Layout) (offset : Nat) (rest : Bytes) : ∃ parts,
      timesFrom walk list.length done ⟨offset, list.flatMap write ++ rest⟩ =
          .ok (done.reverse ++ parts) ⟨offset + (list.flatMap write).length, rest⟩ ∧
        toBytes parts.flatten = list.flatMap write ∧
        ∀ start, mentionsAt start parts.flatten = inTurn write found start list := by
  induction list generalizing done offset with
  | nil => exact ⟨[], by simp [timesFrom, pure, EStateM.pure], rfl, fun _ => rfl⟩
  | cons a list ih =>
    obtain ⟨l, hl, hbytes, hfound⟩ := h.complete a (hvalid a List.mem_cons_self) offset
      (list.flatMap write ++ rest)
    obtain ⟨parts, hparts, hbytes', hfound'⟩ := ih (fun b hb => hvalid b (List.mem_cons_of_mem a hb))
      (l :: done) (offset + (write a).length)
    refine ⟨l :: parts, ?_, ?_, fun start => ?_⟩
    · rw [List.flatMap_cons, List.append_assoc, List.length_cons, timesFrom, bind_of_ok hl, hparts]
      simp only [List.reverse_cons, List.append_assoc, List.cons_append, List.nil_append,
        List.length_append, Nat.add_assoc]
    · rw [List.flatten_cons, toBytes_append, hbytes, hbytes', List.flatMap_cons]
    · rw [List.flatten_cons, mentionsAt_append, hbytes, hfound, hfound', inTurn]

theorem timesFrom_sound (h : Walks walk write found Valid) (n : Nat) (done parts : List Layout)
    (c c' : Cursor) (hwalk : timesFrom walk n done c = .ok parts c') :
    ∃ list : List α, list.length = n ∧ (∀ a ∈ list, Valid a) ∧
      c.rest = list.flatMap write ++ c'.rest ∧
      c'.offset = c.offset + (list.flatMap write).length := by
  induction n generalizing done c with
  | zero =>
    obtain ⟨-, rfl⟩ : done.reverse = parts ∧ c = c' := by
      simpa [timesFrom, pure, EStateM.pure] using hwalk
    exact ⟨[], by simp⟩
  | succ n ih =>
    obtain ⟨l, mid, hhead, htail⟩ := bind_ok hwalk
    obtain ⟨a, ha, hrest, hoffset⟩ := h.sound _ _ _ hhead
    obtain ⟨list, hlength, hall, hmore, hend⟩ := ih _ _ htail
    refine ⟨a :: list, by rw [List.length_cons, hlength], List.forall_mem_cons.mpr ⟨ha, hall⟩, ?_, ?_⟩
    · rw [hrest, hmore, List.flatMap_cons, List.append_assoc]
    · rw [hend, hoffset, List.flatMap_cons, List.length_append, Nat.add_assoc]

theorem unique_flatMap (h : Walks walk write found Valid) {list list' : List α}
    (hlength : list.length = list'.length) (hvalid : ∀ a ∈ list, Valid a)
    (hvalid' : ∀ a ∈ list', Valid a) {rest rest' : Bytes}
    (heq : list.flatMap write ++ rest = list'.flatMap write ++ rest') :
    list = list' ∧ rest = rest' := by
  induction list generalizing list' with
  | nil =>
    obtain rfl := List.length_eq_zero_iff.mp hlength.symm
    exact ⟨rfl, heq⟩
  | cons a list ih =>
    obtain ⟨b, list', rfl⟩ := List.exists_cons_of_length_eq_add_one hlength.symm
    simp only [List.flatMap_cons, List.append_assoc] at heq
    obtain ⟨ha, hlist⟩ := List.forall_mem_cons.mp hvalid
    obtain ⟨hb, hlist'⟩ := List.forall_mem_cons.mp hvalid'
    obtain ⟨rfl, hbehind⟩ := h.unique _ _ _ _ ha hb heq
    obtain ⟨rfl, hrest⟩ := ih (Nat.succ.inj hlength) hlist hlist' hbehind
    exact ⟨rfl, hrest⟩

/-- Values behind their number in 16 bits. -/
theorem counted (h : Walks walk write found Valid) :
    Walks (Layout.counted walk) (countedBytes write)
      (fun start list => inTurn write found (start + 2) list)
      fun list => list.length < 65536 ∧ ∀ a ∈ list, Valid a where
  complete := by
    rintro list ⟨hlength, hvalid⟩ offset rest
    obtain ⟨parts, hparts, hbytes, hfound⟩ :=
      h.timesFrom_complete list hvalid [] (offset + 2) rest
    have hcount : (UInt16.ofNat list.length).toNat = list.length := by
      rw [UInt16.toNat_ofNat']
      exact Nat.mod_eq_of_lt hlength
    refine ⟨.plain (bytes16 (UInt16.ofNat list.length)) :: parts.flatten, ?_, ?_, fun start => ?_⟩
    · rw [Layout.counted, countedBytes, List.append_assoc,
        bind_of_ok (word16_codec.complete _ trivial offset _), hcount, times]
      rw [length_bytes16, bind_of_ok hparts, List.length_append, length_bytes16, ← Nat.add_assoc]
      rfl
    · rw [toBytes_cons, hbytes]
      rfl
    · exact hfound (start + 2)
  sound := by
    intro c l c' hwalk
    obtain ⟨count, mid, hcount, hwalk⟩ := bind_ok hwalk
    obtain ⟨parts, hparts, rfl⟩ := return_ok hwalk
    obtain ⟨-, hrest, hoffset⟩ := word16_codec.sound _ _ _ hcount
    obtain ⟨list, hlength, hvalid, hrest', hoffset'⟩ := h.timesFrom_sound _ _ _ _ _ hparts
    have hword : UInt16.ofNat list.length = count := by rw [hlength, UInt16.ofNat_toNat]
    refine ⟨list, ⟨hlength ▸ count.toNat_lt, hvalid⟩, ?_, ?_⟩
    · rw [hrest, hrest', countedBytes, hword, List.append_assoc]
    · rw [hoffset', hoffset, countedBytes, hword, List.length_append, Nat.add_assoc]
  unique := by
    rintro list list' rest rest' ⟨hlength, hvalid⟩ ⟨hlength', hvalid'⟩ heq
    simp only [countedBytes, List.append_assoc] at heq
    obtain ⟨hcount, heq⟩ := unique_bytes16 _ _ _ _ heq
    have hsame : list.length = list'.length := by
      have := congrArg UInt16.toNat hcount
      simp only [UInt16.toNat_ofNat'] at this
      omega
    exact h.unique_flatMap hsame hvalid hvalid' heq

/-- Values behind a byte that tells how they are written. -/
theorem behind {content : UInt8 → Decoder Layout} (tag : α → UInt8)
    (h : ∀ b, Walks (content b) write found fun a => Valid a ∧ tag a = b) :
    Walks (do let b ← byte; return .plain [b] :: (← content b)) (fun a => tag a :: write a)
      (fun start => found (start + 1)) Valid where
  complete := by
    intro a ha offset rest
    obtain ⟨l, hl, hbytes, hfound⟩ := (h (tag a)).complete a ⟨ha, rfl⟩ (offset + 1) rest
    refine ⟨.plain [tag a] :: l, ?_, by rw [toBytes_cons, hbytes]; rfl, fun start => hfound _⟩
    rw [List.length_cons, Nat.add_comm (write a).length, ← Nat.add_assoc]
    exact (bind_of_ok (byte_codec.complete (tag a) trivial offset (write a ++ rest))).trans
      (bind_of_ok hl)
  sound := by
    intro c l c' hwalk
    obtain ⟨b, mid, hbyte, hwalk⟩ := bind_ok hwalk
    obtain ⟨l₂, hl, rfl⟩ := return_ok hwalk
    obtain ⟨-, hrest, hoffset⟩ := byte_codec.sound _ _ _ hbyte
    obtain ⟨a, ⟨ha, rfl⟩, hrest', hoffset'⟩ := (h b).sound _ _ _ hl
    refine ⟨a, ha, by rw [hrest, hrest']; rfl, ?_⟩
    rw [hoffset', hoffset, List.length_singleton, Nat.add_assoc, Nat.add_comm 1, List.length_cons]
  unique := by
    intro a a' rest rest' ha ha' heq
    obtain ⟨htag, heq⟩ := List.cons.inj heq
    exact (h (tag a)).unique a a' rest rest' ⟨ha, rfl⟩ ⟨ha', htag.symm⟩ heq

/-- Nothing is cut where nothing is valid. -/
theorem refuse {e : FormatError} (h : ∀ a, ¬Valid a) : Walks (throw e) write found Valid where
  complete a ha := absurd ha (h a)
  sound := by
    intro c l c' hwalk
    have hrefused : EStateM.Result.error e c = .ok l c' := hwalk
    cases hrefused
  unique a _ _ _ ha := absurd ha (h a)

end Walks

end Layout

/-! ## The parts of a tree -/

theorem AnnotationElement.listToBytes_eq (list : List AnnotationElement) :
    AnnotationElement.listToBytes list = list.flatMap AnnotationElement.toBytes := by
  induction list with
  | nil => rfl
  | cons e list ih =>
    obtain ⟨name, value⟩ := e
    rw [AnnotationElement.listToBytes, ih]
    rfl

theorem ElementValue.listToBytes_eq (list : List ElementValue) :
    ElementValue.listToBytes list = list.flatMap ElementValue.toBytes := by
  induction list with
  | nil => rfl
  | cons v list ih =>
    rw [ElementValue.listToBytes, ih]
    rfl

theorem AnnotationTree.toBytes_eq (a : AnnotationTree) :
    a.toBytes = bytes16 a.type ++ countedBytes AnnotationElement.toBytes a.elements := by
  obtain ⟨type, elements⟩ := a
  rw [AnnotationTree.toBytes, AnnotationElement.listToBytes_eq]
  rfl

theorem ElementValue.content_array (values : List ElementValue) :
    (ElementValue.array values).content = countedBytes ElementValue.toBytes values := by
  rw [ElementValue.content, ElementValue.listToBytes_eq]
  rfl

theorem AnnotationElement.allFit_iff (list : List AnnotationElement) :
    AnnotationElement.AllFit list ↔ ∀ e ∈ list, e.value.Fits := by
  induction list with
  | nil => simp [AnnotationElement.AllFit]
  | cons e list ih =>
    obtain ⟨name, value⟩ := e
    simp [AnnotationElement.AllFit, ih]

theorem ElementValue.allFit_iff (list : List ElementValue) :
    ElementValue.AllFit list ↔ ∀ v ∈ list, v.Fits := by
  induction list with
  | nil => simp [ElementValue.AllFit]
  | cons v list ih => simp [ElementValue.AllFit, ih]

theorem AnnotationTree.fits_iff (a : AnnotationTree) :
    a.Fits ↔ a.elements.length < 65536 ∧ ∀ e ∈ a.elements, e.value.Fits := by
  obtain ⟨type, elements⟩ := a
  rw [AnnotationTree.Fits, AnnotationElement.allFit_iff]

open Layout

/-- The mentions of an element that starts at `offset`. -/
def AnnotationElement.mentions (offset : Nat) (e : AnnotationElement) : List Mention :=
  ⟨offset, e.name, .pinned⟩ :: e.value.mentions (offset + 3)

theorem AnnotationElement.listMentions_eq (offset : Nat) (list : List AnnotationElement) :
    AnnotationElement.listMentions offset list =
      Walks.inTurn AnnotationElement.toBytes AnnotationElement.mentions offset list := by
  induction list generalizing offset with
  | nil => rfl
  | cons e list ih =>
    obtain ⟨name, value⟩ := e
    rw [AnnotationElement.listMentions, ih, Walks.inTurn, AnnotationElement.toBytes,
      List.length_append, length_bytes16, Nat.add_assoc]
    rfl

theorem ElementValue.listMentions_eq (offset : Nat) (list : List ElementValue) :
    ElementValue.listMentions offset list =
      Walks.inTurn ElementValue.toBytes (fun start => ElementValue.mentions (start + 1)) offset
        list := by
  induction list generalizing offset with
  | nil => rfl
  | cons v list ih => rw [ElementValue.listMentions, ih, Walks.inTurn]

theorem AnnotationTree.listMentions_eq (offset : Nat) (list : List AnnotationTree) :
    AnnotationTree.listMentions offset list =
      Walks.inTurn AnnotationTree.toBytes (AnnotationTree.mentions .annotationType) offset list := by
  induction list generalizing offset with
  | nil => rfl
  | cons a list ih => rw [AnnotationTree.listMentions, ih, Walks.inTurn]

/-! ## Nesting -/

/-- All numbers inside a value fit into 16 bits, and values are nested at most `n` deep. -/
def ElementValue.FitsWithin : Nat → ElementValue → Prop
  | 0, _ => False
  | n + 1, .nested a => a.elements.length < 65536 ∧ ∀ e ∈ a.elements, e.value.FitsWithin n
  | n + 1, .array values => values.length < 65536 ∧ ∀ v ∈ values, v.FitsWithin n
  | _ + 1, _ => True

/-- The same for the values inside an annotation. -/
def AnnotationTree.FitsWithin (n : Nat) (a : AnnotationTree) : Prop :=
  a.elements.length < 65536 ∧ ∀ e ∈ a.elements, e.value.FitsWithin n

theorem ElementValue.fits_of_fitsWithin {n : Nat} {v : ElementValue} (h : v.FitsWithin n) :
    v.Fits := by
  induction n generalizing v with
  | zero => exact h.elim
  | succ n ih =>
    cases v with
    | nested a => exact a.fits_iff.mpr ⟨h.1, fun e he => ih (h.2 e he)⟩
    | array values => exact ⟨h.1, (ElementValue.allFit_iff _).mpr fun v hv => ih (h.2 v hv)⟩
    | _ => trivial

theorem length_le_of_mem_flatMap {α : Type} (write : α → Bytes) {list : List α} {a : α}
    (h : a ∈ list) : (write a).length ≤ (list.flatMap write).length := by
  obtain ⟨front, rest, rfl⟩ := List.append_of_mem h
  simp only [List.flatMap_append, List.flatMap_cons, List.length_append]
  omega

/-- Nesting takes bytes, so a value is not nested deeper than it is long. -/
theorem ElementValue.fitsWithin_of_fits {n : Nat} {v : ElementValue} (h : v.Fits)
    (hlength : v.toBytes.length ≤ n) : v.FitsWithin n := by
  induction n generalizing v with
  | zero =>
    rw [ElementValue.toBytes, List.length_cons] at hlength
    omega
  | succ n ih =>
    rw [ElementValue.toBytes, List.length_cons] at hlength
    cases v with
    | nested a =>
      obtain ⟨hcount, hall⟩ := a.fits_iff.mp h
      refine ⟨hcount, fun e he => ih (hall e he) ?_⟩
      have hmem := length_le_of_mem_flatMap AnnotationElement.toBytes he
      rw [ElementValue.content, AnnotationTree.toBytes_eq, countedBytes] at hlength
      rw [AnnotationElement.toBytes] at hmem
      simp only [List.length_append] at hlength hmem
      omega
    | array values =>
      refine ⟨h.1, fun v hv => ih ((ElementValue.allFit_iff _).mp h.2 v hv) ?_⟩
      have hmem := length_le_of_mem_flatMap ElementValue.toBytes hv
      rw [ElementValue.content_array, countedBytes, List.length_append] at hlength
      omega
    | _ => trivial

theorem AnnotationTree.fits_of_fitsWithin {n : Nat} {a : AnnotationTree} (h : a.FitsWithin n) : a.Fits :=
  a.fits_iff.mpr ⟨h.1, fun e he => ElementValue.fits_of_fitsWithin (h.2 e he)⟩

theorem AnnotationTree.fitsWithin_of_fits {n : Nat} {a : AnnotationTree} (h : a.Fits)
    (hlength : a.toBytes.length ≤ n) : a.FitsWithin n := by
  obtain ⟨hcount, hall⟩ := a.fits_iff.mp h
  refine ⟨hcount, fun e he => ElementValue.fitsWithin_of_fits (hall e he) ?_⟩
  have hmem := length_le_of_mem_flatMap AnnotationElement.toBytes he
  rw [AnnotationTree.toBytes_eq, countedBytes] at hlength
  rw [AnnotationElement.toBytes] at hmem
  simp only [List.length_append] at hlength hmem
  omega

/-! ## Annotations -/

section Trees

variable {value : Decoder Layout} {n : Nat}
  (h : Walks value ElementValue.toBytes (fun start => ElementValue.mentions (start + 1))
    (ElementValue.FitsWithin n))
include h

theorem walks_element : Walks (sequence [indexFor .pinned, value]) AnnotationElement.toBytes
    AnnotationElement.mentions fun e => e.value.FitsWithin n :=
  ((Walks.index .pinned).pair h).map (fun p => ⟨p.1, p.2⟩) (fun _ => rfl) (fun _ _ => rfl)
    fun ⟨name, value⟩ => ⟨fun he => ⟨(name, value), ⟨trivial, he⟩, rfl⟩,
      by rintro ⟨p, hp, heq⟩; rw [← heq]; exact hp.2⟩

theorem walks_tree (use : IndexUse) : Walks (annotationWith value use) AnnotationTree.toBytes
    (AnnotationTree.mentions use) (AnnotationTree.FitsWithin n) := by
  refine ((Walks.index use).pair (walks_element h).counted).map (fun p => ⟨p.1, p.2⟩) ?_ ?_ ?_
  · exact fun p => AnnotationTree.toBytes_eq _
  · intro start p
    rw [AnnotationTree.mentions, AnnotationElement.listMentions_eq]
    rfl
  · exact fun ⟨type, elements⟩ => ⟨fun ha => ⟨(type, elements), ⟨trivial, ha⟩, rfl⟩,
      by rintro ⟨p, hp, heq⟩; rw [← heq]; exact hp.2⟩

end Trees

/-! ## Values

A value is walked by the letter in front of it.
-/

namespace ElementValue

theorem letter_toUInt8 (v : ElementValue) (tag : UInt8) :
    v.letter.toUInt8 = tag ↔ v.letter = Char.ofNat tag.toNat := by
  have hletter : Char.ofNat v.letter.toUInt8.toNat = v.letter := by
    cases v with
    | constant kind => cases kind <;> rfl
    | _ => rfl
  have htag : (Char.ofNat tag.toNat).toUInt8 = tag := by
    have hvalid : tag.toNat.isValidChar := .inl (Nat.lt_trans tag.toNat_lt (by decide))
    have hnat : (Char.ofNat tag.toNat).toNat = tag.toNat := by
      rw [Char.ofNat, dif_pos hvalid]
      rfl
    apply UInt8.toNat_inj.mp
    rw [Char.toUInt8, UInt32.toNat_toUInt8]
    exact (congrArg (· % 256) hnat).trans (Nat.mod_eq_of_lt tag.toNat_lt)
  constructor
  · rintro rfl
    exact hletter.symm
  · intro h
    rw [h, htag]

/-- The values with a letter are those of one form. -/
theorem valid_iff {α : Type} {tag : UInt8} {letter : Char} (hletter : Char.ofNat tag.toNat = letter)
    {Valid : ElementValue → Prop} {ValidInside : α → Prop} {f : α → ElementValue}
    (hform : ∀ v : ElementValue, v.letter = letter ↔ ∃ a, f a = v)
    (hinside : ∀ a, Valid (f a) ↔ ValidInside a) (v : ElementValue) :
    (Valid v ∧ v.letter.toUInt8 = tag) ↔ ∃ a, ValidInside a ∧ f a = v := by
  rw [letter_toUInt8, hletter, hform]
  constructor
  · rintro ⟨hv, a, rfl⟩
    exact ⟨a, (hinside a).mp hv, rfl⟩
  · rintro ⟨a, ha, rfl⟩
    exact ⟨(hinside a).mpr ha, a, rfl⟩

theorem letter_eq_constant (kind : ConstantKind) (v : ElementValue) :
    v.letter = kind.letter ↔ ∃ i, .constant kind i = v := by
  cases v with
  | constant kind' i => cases kind <;> cases kind' <;> simp [letter, ConstantKind.letter]
  | _ => cases kind <;> simp [letter, ConstantKind.letter]

theorem letter_eq_string (v : ElementValue) : v.letter = 's' ↔ ∃ i, .string i = v := by
  cases v with
  | constant kind => cases kind <;> simp [letter, ConstantKind.letter]
  | _ => simp [letter]

theorem letter_eq_enumConstant (v : ElementValue) :
    v.letter = 'e' ↔ ∃ p : UInt16 × UInt16, .enumConstant p.1 p.2 = v := by
  cases v with
  | constant kind => cases kind <;> simp [letter, ConstantKind.letter]
  | _ => simp [letter]

theorem letter_eq_classLiteral (v : ElementValue) :
    v.letter = 'c' ↔ ∃ i, .classLiteral i = v := by
  cases v with
  | constant kind => cases kind <;> simp [letter, ConstantKind.letter]
  | _ => simp [letter]

theorem letter_eq_nested (v : ElementValue) : v.letter = '@' ↔ ∃ a, .nested a = v := by
  cases v with
  | constant kind => cases kind <;> simp [letter, ConstantKind.letter]
  | _ => simp [letter]

theorem letter_eq_array (v : ElementValue) : v.letter = '[' ↔ ∃ values, .array values = v := by
  cases v with
  | constant kind => cases kind <;> simp [letter, ConstantKind.letter]
  | _ => simp [letter]

variable {n : Nat}

theorem walks_constant (kind : ConstantKind) {tag : UInt8}
    (hletter : Char.ofNat tag.toNat = kind.letter) :
    Walks (skip 2) content mentions fun v => v.FitsWithin (n + 1) ∧ v.letter.toUInt8 = tag :=
  Walks.constant.map (.constant kind) (fun _ => rfl) (fun _ _ => rfl)
    (valid_iff hletter (letter_eq_constant kind) fun _ => Iff.rfl)

/-- What stands behind the letter of a value is walked. -/
theorem walks_content (h : Walks (Layout.elementValue n) toBytes (fun start => mentions (start + 1))
    (FitsWithin n)) (tag : UInt8) : Walks (elementContent n tag) content mentions
      fun v => v.FitsWithin (n + 1) ∧ v.letter.toUInt8 = tag := by
  unfold elementContent
  split
  case h_1 hletter => exact walks_constant .byte hletter
  case h_2 hletter => exact walks_constant .char hletter
  case h_3 hletter => exact walks_constant .double hletter
  case h_4 hletter => exact walks_constant .float hletter
  case h_5 hletter => exact walks_constant .int hletter
  case h_6 hletter => exact walks_constant .long hletter
  case h_7 hletter => exact walks_constant .short hletter
  case h_8 hletter => exact walks_constant .boolean hletter
  case h_9 hletter =>
    exact (Walks.index _).map .string (fun _ => rfl) (fun _ _ => rfl)
      (valid_iff hletter letter_eq_string fun _ => Iff.rfl)
  case h_10 hletter =>
    exact ((Walks.index _).pair (Walks.index _)).map (fun p => .enumConstant p.1 p.2)
      (fun _ => rfl) (fun _ _ => rfl)
      (valid_iff hletter letter_eq_enumConstant fun _ => (and_self_iff (a := True)).symm)
  case h_11 hletter =>
    exact (Walks.index _).map .classLiteral (fun _ => rfl) (fun _ _ => rfl)
      (valid_iff hletter letter_eq_classLiteral fun _ => Iff.rfl)
  case h_12 hletter =>
    exact (walks_tree h _).map .nested (fun _ => rfl) (fun _ _ => rfl)
      (valid_iff hletter letter_eq_nested fun _ => Iff.rfl)
  case h_13 hletter =>
    refine h.counted.map .array content_array (fun start values => ?_)
      (valid_iff hletter letter_eq_array fun _ => Iff.rfl)
    rw [mentions, listMentions_eq]
  case h_14 =>
    -- every letter of a value is among those that were tried
    refine Walks.refuse fun v hv => ?_
    have hletter := ((letter_toUInt8 v tag).mp hv.2).symm
    cases v with
    | constant kind => cases kind <;> simp_all [letter, ConstantKind.letter]
    | _ => simp_all [letter]

/-- **Values are walked exactly**, whatever they hold. -/
theorem walks_elementValue (n : Nat) : Walks (Layout.elementValue n) toBytes
    (fun start => mentions (start + 1)) (FitsWithin n) := by
  induction n with
  | zero => exact Walks.refuse fun _ hv => hv
  | succ n ih =>
    rw [elementValue_succ]
    exact Walks.behind (fun v : ElementValue => v.letter.toUInt8) (walks_content ih)

end ElementValue

namespace AnnotationTree

/-- **Bodies that apply annotations are walked exactly.** -/
theorem walks_body (n : Nat) : Walks (Layout.counted (annotationItem n .annotationType)) bodyBytes
    (fun start => listMentions (start + 2))
    fun list => list.length < 65536 ∧ ∀ a ∈ list, a.FitsWithin n :=
  (walks_tree (ElementValue.walks_elementValue n) .annotationType).counted.map id
    (fun _ => rfl) (fun _ _ => listMentions_eq _ _) fun list =>
      ⟨fun h => ⟨list, h, rfl⟩, by rintro ⟨_, h, rfl⟩; exact h⟩

end AnnotationTree

end JvmRelocation
