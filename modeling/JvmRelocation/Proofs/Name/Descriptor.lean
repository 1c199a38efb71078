import JvmRelocation.Name.Role

/-!
# Descriptors are cut and put together again

Cutting a text at its object types loses nothing of it, and a descriptor that closes and whose names
hold no semicolon is what its text is cut into. So renaming a text that closes renames exactly its
names, and one renaming after another does what their composition does name by name.
-/

namespace JvmRelocation.Descriptor

/-! ## Cutting -/

/-- Cutting goes on through a piece that opens no object type. -/
theorem outside_append (found : List ObjectType) (piece chunk rest : List Char) (h : 'L' ∉ chunk) :
    outside found piece (chunk ++ rest) = outside found (chunk.reverse ++ piece) rest := by
  induction chunk generalizing piece with
  | nil => rfl
  | cons c chunk ih =>
    rw [List.mem_cons, not_or] at h
    rw [List.cons_append, outside, if_neg (Ne.symm h.1), ih _ h.2, List.reverse_cons,
      List.append_assoc]
    rfl

/-- Cutting goes on through a name that does not close. -/
theorem inside_append (found : List ObjectType) (piece name chunk rest : List Char)
    (h : ';' ∉ chunk) :
    inside found piece name (chunk ++ rest) = inside found piece (chunk.reverse ++ name) rest := by
  induction chunk generalizing name with
  | nil => rfl
  | cons c chunk ih =>
    rw [List.mem_cons, not_or] at h
    rw [List.cons_append, inside, if_neg (Ne.symm h.1), ih _ h.2, List.reverse_cons,
      List.append_assoc]
    rfl

/-- A descriptor as cutting gives it: what stands between its object types opens none, and their
names close none. -/
structure Proper (d : Descriptor) : Prop where
  before : ∀ o ∈ d.objects, 'L' ∉ o.before
  name : ∀ o ∈ d.objects, ';' ∉ o.name.toList

/-- The text of the object types found so far, which are held in reverse. -/
def foundText (found : List ObjectType) : List Char :=
  found.reverse.flatMap ObjectType.written

theorem foundText_cons (o : ObjectType) (found : List ObjectType) :
    foundText (o :: found) = foundText found ++ ObjectType.written o := by
  simp [foundText]

/-- Cutting loses nothing: of the text behind a cursor, and of what was read before. -/
theorem toText_cut (rest : List Char) :
    (∀ found piece, (outside found piece rest).toText = foundText found ++ piece.reverse ++ rest) ∧
      ∀ found piece name, (inside found piece name rest).toText =
        foundText found ++ piece.reverse ++ 'L' :: (name.reverse ++ rest) := by
  induction rest with
  | nil => exact ⟨fun _ _ => by simp [outside, toText, foundText],
      fun _ _ _ => by simp [inside, toText, foundText]⟩
  | cons c rest ih =>
    constructor
    · intro found piece
      rw [outside]
      split
      case isTrue h => simp [ih.2, h]
      case isFalse => simp [ih.1]
    · intro found piece name
      rw [inside]
      split
      case isTrue h => simp [ih.1, foundText_cons, ObjectType.written, h]
      case isFalse => simp [ih.2]

theorem toText_ofText (text : List Char) : (ofText text).toText = text := by
  rw [ofText, (toText_cut text).1]
  rfl

theorem proper_cut (rest : List Char) :
    (∀ found piece, Proper ⟨found.reverse, []⟩ → 'L' ∉ piece → (outside found piece rest).Proper) ∧
      ∀ found piece name, Proper ⟨found.reverse, []⟩ → 'L' ∉ piece → ';' ∉ name →
        (inside found piece name rest).Proper := by
  induction rest with
  | nil => exact ⟨fun _ _ h _ => ⟨h.1, h.2⟩, fun _ _ _ h _ _ => ⟨h.1, h.2⟩⟩
  | cons c rest ih =>
    constructor
    · intro found piece hfound hpiece
      rw [outside]
      split
      case isTrue => exact ih.2 _ _ _ hfound hpiece List.not_mem_nil
      case isFalse h => exact ih.1 _ _ hfound (by simp [hpiece, Ne.symm h])
    · intro found piece name hfound hpiece hname
      rw [inside]
      split
      case isTrue =>
        refine ih.1 _ _ ⟨fun o ho => ?_, fun o ho => ?_⟩ List.not_mem_nil
        · rcases List.mem_append.mp (List.reverse_cons ▸ ho) with ho | ho
          · exact hfound.before o ho
          · obtain rfl := List.mem_singleton.mp ho
            simpa using hpiece
        · rcases List.mem_append.mp (List.reverse_cons ▸ ho) with ho | ho
          · exact hfound.name o ho
          · obtain rfl := List.mem_singleton.mp ho
            simpa using hname
      case isFalse h => exact ih.2 _ _ _ hfound hpiece (by simp [hname, Ne.symm h])

theorem proper_ofText (text : List Char) : (ofText text).Proper :=
  (proper_cut text).1 [] [] ⟨by simp, by simp⟩ List.not_mem_nil

/-- What is written in front of the tail is cut into its object types. -/
theorem outside_written (objects : List ObjectType) (hobjects : Proper ⟨objects, []⟩)
    (found : List ObjectType) (rest : List Char) :
    outside found [] (objects.flatMap ObjectType.written ++ rest) =
      outside (objects.reverse ++ found) [] rest := by
  induction objects generalizing found with
  | nil => rfl
  | cons o objects ih =>
    have hbefore := hobjects.before o List.mem_cons_self
    have hname := hobjects.name o List.mem_cons_self
    have hrest : Proper ⟨objects, []⟩ :=
      ⟨fun o ho => hobjects.before o (List.mem_cons_of_mem _ ho),
        fun o ho => hobjects.name o (List.mem_cons_of_mem _ ho)⟩
    rw [List.flatMap_cons, ObjectType.written]
    simp only [List.append_assoc, List.cons_append, List.nil_append]
    rw [outside_append _ _ _ _ hbefore, outside, if_pos rfl, inside_append _ _ _ _ _ hname, inside,
      if_pos rfl, ih hrest]
    simp

/-- **A descriptor is what its text is cut into.** -/
theorem ofText_toText {d : Descriptor} (h : d.Proper) (hclosed : d.isClosed = true) :
    ofText d.toText = d := by
  obtain ⟨objects, tail⟩ := d
  have htail : 'L' ∉ tail := by simpa [isClosed] using hclosed
  rw [ofText, toText, outside_written objects ⟨h.before, h.name⟩]
  have hend := outside_append objects.reverse [] tail [] htail
  simp only [List.append_nil] at hend ⊢
  rw [hend, outside]
  simp

/-! ## Renaming -/

theorem isClosed_rename (m : NameMapper) (d : Descriptor) : (d.rename m).isClosed = d.isClosed := rfl

theorem names_rename (m : NameMapper) (d : Descriptor) :
    (d.rename m).names = d.names.map m.rename := by
  simp [names, rename]

/-- A mapper that gives a name without semicolons a new name without semicolons. -/
def KeepsNames (m : NameMapper) : Prop :=
  ∀ name target, m name = some target → ';' ∉ name.toList → ';' ∉ target.toList

theorem Proper.rename {d : Descriptor} (h : d.Proper) {m : NameMapper} (hm : KeepsNames m) :
    (d.rename m).Proper := by
  constructor
  · intro o ho
    obtain ⟨o', ho', rfl⟩ := List.mem_map.mp ho
    exact h.before o' ho'
  · intro o ho
    obtain ⟨o', ho', rfl⟩ := List.mem_map.mp ho
    show ';' ∉ (m.rename o'.name).toList
    rw [NameMapper.rename]
    cases htarget : m o'.name with
    | none => exact h.name o' ho'
    | some target => exact hm _ _ htarget (h.name o' ho')

/-- A renaming that keeps the names keeps the descriptor. -/
theorem rename_of_names {m : NameMapper} {d : Descriptor} (h : (d.rename m).names = d.names) :
    d.rename m = d := by
  have hkept : ∀ o ∈ d.objects, m.rename o.name = o.name := by
    rw [names, names, rename, List.map_map, List.map_inj_left] at h
    exact h
  have hobjects : d.objects.map (fun t => { t with name := m.rename t.name }) = d.objects := by
    conv => rhs; rw [← List.map_id d.objects]
    refine List.map_congr_left fun o ho => ?_
    rw [hkept o ho]
    rfl
  rw [rename, hobjects]

/-- A text after a renaming: what it becomes, or itself. -/
def renamed (m : NameMapper) (text : String) : String :=
  (remap m text).getD text

/-- The text of a descriptor that closes is the text of the renamed descriptor. -/
theorem renamed_of_closed {m : NameMapper} {text : String}
    (h : (ofText text.toList).isClosed = true) :
    renamed m text = String.ofList ((ofText text.toList).rename m).toText := by
  by_cases hnames : ((ofText text.toList).rename m).names = (ofText text.toList).names
  · have hnone : remap m text = none := by
      rw [remap]
      simp [hnames]
    rw [renamed, hnone, Option.getD_none, rename_of_names hnames, toText_ofText, String.ofList_toList]
  · have hsome : remap m text = some (String.ofList ((ofText text.toList).rename m).toText) := by
      rw [remap]
      simp [h, hnames]
    rw [renamed, hsome, Option.getD_some]

theorem renamed_of_open {m : NameMapper} {text : String}
    (h : (ofText text.toList).isClosed = false) : renamed m text = text := by
  rw [renamed, remap]
  simp [h]

/-- The descriptor that a renamed text is cut into. -/
theorem ofText_renamed {m : NameMapper} (hm : KeepsNames m) {text : String}
    (h : (ofText text.toList).isClosed = true) :
    ofText (renamed m text).toList = (ofText text.toList).rename m := by
  rw [renamed_of_closed h, String.toList_ofList]
  exact ofText_toText ((proper_ofText _).rename hm) h

/-- The names of a renamed text are the renamed names. -/
theorem namesIn_renamed {m : NameMapper} (hm : KeepsNames m) {text : String}
    (h : (ofText text.toList).isClosed = true) :
    namesIn (renamed m text) = (namesIn text).map m.rename := by
  rw [namesIn, ofText_renamed hm h, names_rename]
  rfl

/-- **One renaming after another.** A text is renamed in two steps to what a third renaming makes of
it, if that holds of every name. -/
theorem renamed_renamed {m₁ m₂ m : NameMapper} (hm₁ : KeepsNames m₁)
    (h : ∀ name, m₂.rename (m₁.rename name) = m.rename name) (text : String) :
    renamed m₂ (renamed m₁ text) = renamed m text := by
  cases hclosed : (ofText text.toList).isClosed with
  | false => rw [renamed_of_open hclosed, renamed_of_open hclosed, renamed_of_open hclosed]
  | true =>
    have hclosed₁ : (ofText (renamed m₁ text).toList).isClosed = true := by
      rw [ofText_renamed hm₁ hclosed, isClosed_rename, hclosed]
    rw [renamed_of_closed hclosed₁, ofText_renamed hm₁ hclosed, renamed_of_closed hclosed]
    simp [rename, toText, h, Function.comp_def]

/-- The text of a descriptor starts as it did before a renaming, unless that is with an object
type. -/
theorem head?_renamed {m : NameMapper} {text : String} {c : Char} (hc : c ≠ 'L')
    (h : text.toList.head? = some c) : (renamed m text).toList.head? = some c := by
  cases hclosed : (ofText text.toList).isClosed with
  | false => rw [renamed_of_open hclosed, h]
  | true =>
    rw [renamed_of_closed hclosed, String.toList_ofList]
    rw [← toText_ofText text.toList] at h
    generalize ofText text.toList = d at h ⊢
    obtain ⟨objects, tail⟩ := d
    cases objects with
    | nil => exact h
    | cons o objects =>
      obtain ⟨before, name⟩ := o
      cases before with
      | nil =>
        obtain rfl : 'L' = c := by simpa [toText, ObjectType.written] using h
        exact absurd rfl hc
      | cons first before => simpa [toText, ObjectType.written, rename] using h

end JvmRelocation.Descriptor
