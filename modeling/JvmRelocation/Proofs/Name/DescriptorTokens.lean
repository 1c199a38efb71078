import JvmRelocation.Proofs.Name.Role

/-!
# Descriptors are renamed token by token

There is one way to cut a text from left to right at its object types, and a renaming puts new names
between the cuts and nothing else. A mapper may give names that hold an `L` or a semicolon, so the
text that comes out need not be cut where the old one was. That it differs all the same is told by
its semicolons: every one of the old text is written again, so a new name that brought another would
make the text longer by it, and new names without any are found again at the old cuts.
-/

namespace JvmRelocation

namespace Descriptor

/-! ## The one cut of a text -/

/-- A descriptor that a text can be cut into from left to right. Nothing of the text is lost, every
object type opens at the first `L` behind the one before it and closes at the next semicolon, and
what is left does not close: no semicolon stands behind the first `L` of the tail, where it has
one. -/
structure IsCutOf (d : Descriptor) (text : List Char) : Prop where
  written : d.toText = text
  proper : d.Proper
  unclosed : ';' ∉ d.tail.dropWhile (· != 'L')

/-- The text in front of the first `L`, and the text from there on. -/
theorem dropWhile_opening (piece rest : List Char) (h : 'L' ∉ piece) :
    (piece ++ rest).dropWhile (· != 'L') = rest.dropWhile (· != 'L') :=
  List.dropWhile_append_of_pos fun c hc => by
    simpa using fun heq : c = 'L' => h (heq ▸ hc)

/-- Whatever cutting leaves behind does not close. -/
theorem unclosed_cut (rest : List Char) :
    (∀ found piece, 'L' ∉ piece →
        ';' ∉ (outside found piece rest).tail.dropWhile (· != 'L')) ∧
      ∀ found piece name, 'L' ∉ piece → ';' ∉ name →
        ';' ∉ (inside found piece name rest).tail.dropWhile (· != 'L') := by
  induction rest with
  | nil =>
    constructor
    · intro found piece hpiece
      have hend := dropWhile_opening piece.reverse [] (by simpa using hpiece)
      rw [List.append_nil] at hend
      rw [outside, hend]
      exact List.not_mem_nil
    · intro found piece name hpiece hname
      rw [inside, dropWhile_opening _ _ (by simpa using hpiece),
        List.dropWhile_cons_of_neg (by simp)]
      simpa using hname
  | cons c rest ih =>
    constructor
    · intro found piece hpiece
      rw [outside]
      split
      case isTrue => exact ih.2 _ _ _ hpiece List.not_mem_nil
      case isFalse h => exact ih.1 _ _ (by simp [hpiece, Ne.symm h])
    · intro found piece name hpiece hname
      rw [inside]
      split
      case isTrue => exact ih.1 _ _ List.not_mem_nil
      case isFalse h => exact ih.2 _ _ _ hpiece (by simp [hname, Ne.symm h])

theorem isCutOf_ofText (text : List Char) : (ofText text).IsCutOf text where
  written := toText_ofText text
  proper := proper_ofText text
  unclosed := (unclosed_cut text).1 [] [] List.not_mem_nil

/-- A tail that does not close is cut no further. -/
theorem outside_tail (found : List ObjectType) {tail : List Char}
    (h : ';' ∉ tail.dropWhile (· != 'L')) : outside found [] tail = ⟨found.reverse, tail⟩ := by
  have hfront : 'L' ∉ tail.takeWhile (· != 'L') := fun hmem => by
    simpa using List.all_eq_true.mp List.all_takeWhile 'L' hmem
  have hparts := List.takeWhile_append_dropWhile (p := (· != 'L')) (l := tail)
  cases hrest : tail.dropWhile (· != 'L') with
  | nil =>
    rw [hrest, List.append_nil] at hparts
    have hend := outside_append found [] _ [] hfront
    rw [hparts, List.append_nil, outside, List.append_nil, List.reverse_reverse] at hend
    exact hend
  | cons c rest =>
    have hopen : c = 'L' := by
      have hhead := List.head?_dropWhile_not (· != 'L') tail
      rw [hrest] at hhead
      simpa using hhead
    subst hopen
    rw [hrest] at h hparts
    have hname : ';' ∉ rest := fun hmem => h (List.mem_cons_of_mem _ hmem)
    have hend := inside_append found (tail.takeWhile (· != 'L')).reverse [] rest [] hname
    rw [List.append_nil, List.append_nil] at hend
    conv => lhs; rw [← hparts]
    rw [outside_append _ _ _ _ hfront, List.append_nil, outside, if_pos rfl, hend, inside,
      List.reverse_reverse, List.reverse_reverse, hparts]

/-- **Only one cut.** Whatever a text can be cut into is what cutting finds. -/
theorem IsCutOf.eq_ofText {d : Descriptor} {text : List Char} (h : d.IsCutOf text) :
    d = ofText text := by
  rw [← h.written, ofText, toText, outside_written _ ⟨h.proper.before, h.proper.name⟩,
    outside_tail _ h.unclosed, List.append_nil, List.reverse_reverse]

/-! ## A changed name changes the text -/

/-- The semicolons of the new names come on top of those the text had: each object type has the one
that closes it, its old name has none. -/
theorem count_written_rename (m : NameMapper) (objects : List ObjectType)
    (h : ∀ o ∈ objects, ';' ∉ o.name.toList) :
    ((objects.map fun o => { o with name := m.rename o.name }).flatMap
        ObjectType.written).count ';' =
      (objects.flatMap ObjectType.written).count ';' +
        (objects.flatMap fun o => (m.rename o.name).toList).count ';' := by
  induction objects with
  | nil => rfl
  | cons o objects ih =>
    have hname : o.name.toList.count ';' = 0 := List.count_eq_zero.mpr (h o List.mem_cons_self)
    have hrest := ih fun o' ho' => h o' (List.mem_cons_of_mem _ ho')
    simp only [List.map_cons, List.flatMap_cons, List.count_append, hrest, ObjectType.written,
      List.count_cons, hname]
    omega

theorem names_rename_eq_iff {m : NameMapper} {d : Descriptor} :
    (d.rename m).names = d.names ↔ ∀ name ∈ d.names, m.rename name = name := by
  rw [names_rename]
  conv => lhs; rhs; rw [← List.map_id d.names]
  exact List.map_inj_left

/-- **A renaming that leaves the text leaves the names**, whatever the new names hold. -/
theorem names_of_toText_rename {m : NameMapper} {d : Descriptor} (h : d.Proper)
    (hclosed : d.isClosed = true) (htext : (d.rename m).toText = d.toText) :
    (d.rename m).names = d.names := by
  have hcount := congrArg (List.count ';') htext
  rw [toText, toText, List.count_append, List.count_append] at hcount
  have hextra : (d.objects.flatMap fun o => (m.rename o.name).toList).count ';' = 0 := by
    have hobjects := count_written_rename m d.objects h.name
    simp only [rename] at hcount
    omega
  have hproper : (d.rename m).Proper := by
    constructor
    · intro o ho
      obtain ⟨o', ho', rfl⟩ := List.mem_map.mp ho
      exact h.before o' ho'
    · intro o ho
      obtain ⟨o', ho', rfl⟩ := List.mem_map.mp ho
      exact fun hmem => List.count_eq_zero.mp hextra (List.mem_flatMap.mpr ⟨o', ho', hmem⟩)
  -- Both descriptors close, so each is what the one text is cut into.
  rw [← ofText_toText hproper hclosed, htext, ofText_toText h hclosed]

/-- What a text becomes as a descriptor, and when. -/
theorem remap_eq_some_iff {m : NameMapper} {text result : String} :
    remap m text = some result ↔ (ofText text.toList).isClosed = true ∧
      (∃ name ∈ namesIn text, m.rename name ≠ name) ∧
      result = String.ofList ((ofText text.toList).rename m).toText := by
  have hchanged : ((ofText text.toList).rename m).names ≠ (ofText text.toList).names ↔
      ∃ name ∈ namesIn text, m.rename name ≠ name := by
    rw [Ne, names_rename_eq_iff]
    simp [namesIn]
  rw [← hchanged, remap]
  by_cases hclosed : (ofText text.toList).isClosed = true
  · by_cases hnames : ((ofText text.toList).rename m).names = (ofText text.toList).names
    · simp [hnames]
    · simp [hclosed, hnames, eq_comm (a := result)]
  · simp [hclosed]

/-- What a text becomes as a descriptor is another text. -/
theorem ne_of_remap {m : NameMapper} {text result : String} (h : remap m text = some result) :
    result ≠ text := by
  obtain ⟨hclosed, hchanged, rfl⟩ := remap_eq_some_iff.mp h
  intro heq
  have htext : ((ofText text.toList).rename m).toText = (ofText text.toList).toText := by
    rw [toText_ofText, ← String.toList_ofList (l := ((ofText text.toList).rename m).toText), heq]
  obtain ⟨name, hname, hne⟩ := hchanged
  exact hne (names_rename_eq_iff.mp (names_of_toText_rename (proper_ofText _) hclosed htext) name
    hname)

end Descriptor

/-! ## Roles that read a text as a descriptor -/

namespace NameRole

/-- Whether a text is read as a descriptor in a role. A class name is, where it names an array. -/
def ReadsDescriptor (role : NameRole) (text : String) : Prop :=
  role = descriptor ∨ role = className ∧ isArray text = true

theorem ReadsDescriptor.remap_eq {role : NameRole} {text : String} (h : role.ReadsDescriptor text)
    (m : NameMapper) : role.remap m text = Descriptor.remap m text := by
  rcases h with rfl | ⟨rfl, harray⟩
  · rfl
  · rw [remap, if_pos harray]

theorem ReadsDescriptor.names_eq {role : NameRole} {text : String} (h : role.ReadsDescriptor text) :
    role.names text = Descriptor.namesIn text := by
  rcases h with rfl | ⟨rfl, harray⟩
  · rfl
  · rw [names, if_pos harray]

theorem ReadsDescriptor.renamed_eq {role : NameRole} {text : String} (h : role.ReadsDescriptor text)
    (m : NameMapper) : role.renamed m text = Descriptor.renamed m text := by
  rw [renamed, h.remap_eq]
  rfl

/-- A renaming leaves the role: an array stays an array. -/
theorem ReadsDescriptor.after {role : NameRole} {text : String} (h : role.ReadsDescriptor text)
    (m : NameMapper) : role.ReadsDescriptor (role.renamed m text) := by
  rcases h with rfl | ⟨rfl, harray⟩
  · exact .inl rfl
  · exact .inr ⟨rfl, isArray_renamed harray m⟩

/-- **Descriptors are renamed token by token, and renamings compose.** Every text can be cut at its
object types from left to right in exactly one way. In a role that reads it as a descriptor, a text
whose tail holds an `L` stays as it is. Any other text stays as it is where every name keeps its own
name, and otherwise becomes the same cuts with the new names between them, which is another text
whatever the mapper gives. Behind a mapper that gives names without semicolons, a second renaming
does what one renaming of every name to its second name does, and the names found are the new ones
of the names there were. -/
theorem remap_renames_tokens (text : String) :
    ∃ d : Descriptor,
      (d.IsCutOf text.toList ∧ ∀ d' : Descriptor, d'.IsCutOf text.toList → d' = d) ∧
      ∀ role : NameRole, role.ReadsDescriptor text →
        ('L' ∈ d.tail → ∀ m, role.remap m text = none) ∧
        ('L' ∉ d.tail → ∀ m,
          ((∀ name ∈ d.names, m.rename name = name) → role.remap m text = none) ∧
          ((∃ name ∈ d.names, m.rename name ≠ name) →
            role.remap m text = some (String.ofList (d.rename m).toText) ∧
            String.ofList (d.rename m).toText ≠ text)) ∧
        (∀ m₁ : NameMapper, Descriptor.KeepsNames m₁ →
          ('L' ∉ d.tail → role.names text = d.names ∧
            role.names (role.renamed m₁ text) = d.names.map m₁.rename) ∧
          ∀ m₂ m : NameMapper, (∀ name, m.rename name = m₂.rename (m₁.rename name)) →
            role.renamed m₂ (role.renamed m₁ text) = role.renamed m text) := by
  refine ⟨Descriptor.ofText text.toList,
    ⟨Descriptor.isCutOf_ofText _, fun d' hd' => hd'.eq_ofText⟩, fun role hrole => ⟨?_, ?_, ?_⟩⟩
  · intro hopen m
    rw [hrole.remap_eq, Descriptor.remap]
    simp [Descriptor.isClosed, hopen]
  · intro htail m
    have hclosed : (Descriptor.ofText text.toList).isClosed = true := by
      simpa [Descriptor.isClosed] using htail
    constructor
    · intro hkept
      rw [hrole.remap_eq, Descriptor.remap]
      simp [Descriptor.names_rename_eq_iff.mpr hkept]
    · intro hchanged
      have hresult := Descriptor.remap_eq_some_iff.mpr ⟨hclosed, hchanged, rfl⟩
      exact ⟨by rw [hrole.remap_eq, hresult], Descriptor.ne_of_remap hresult⟩
  · intro m₁ hm₁
    constructor
    · intro htail
      have hclosed : (Descriptor.ofText text.toList).isClosed = true := by
        simpa [Descriptor.isClosed] using htail
      refine ⟨hrole.names_eq, ?_⟩
      rw [(hrole.after m₁).names_eq, hrole.renamed_eq]
      exact Descriptor.namesIn_renamed hm₁ hclosed
    · intro m₂ m hm
      rw [(hrole.after m₁).renamed_eq, hrole.renamed_eq, hrole.renamed_eq]
      exact Descriptor.renamed_renamed hm₁ (fun name => (hm name).symm) text

/-- The new name of an array's class may hold an object type: the text is cut elsewhere then, and
differs all the same. -/
theorem remap_renames_tokens_array :
    className.ReadsDescriptor "[Lp/A;" ∧
      ∃ d : Descriptor, d.IsCutOf "[Lp/A;".toList ∧ d.names = ["p/A"] ∧ 'L' ∉ d.tail ∧
        className.remap (.single "p/A" "p/A;Lp/B") "[Lp/A;" = some "[Lp/A;Lp/B;" ∧
        "[Lp/A;Lp/B;" ≠ "[Lp/A;" := by
  have hrole : className.ReadsDescriptor "[Lp/A;" := .inr ⟨rfl, by decide +kernel⟩
  obtain ⟨d, ⟨hcut, -⟩, hroles⟩ := remap_renames_tokens "[Lp/A;"
  obtain ⟨-, hclosed, -⟩ := hroles className hrole
  obtain rfl := hcut.eq_ofText
  have htail : 'L' ∉ (Descriptor.ofText "[Lp/A;".toList).tail := by decide +kernel
  have hchanged : ∃ name ∈ (Descriptor.ofText "[Lp/A;".toList).names,
      NameMapper.rename (.single "p/A" "p/A;Lp/B") name ≠ name := by
    decide +kernel
  obtain ⟨hremap, hne⟩ := (hclosed htail (.single "p/A" "p/A;Lp/B")).2 hchanged
  have htext : String.ofList ((Descriptor.ofText "[Lp/A;".toList).rename
      (.single "p/A" "p/A;Lp/B")).toText = "[Lp/A;Lp/B;" := by
    decide +kernel
  rw [htext] at hremap hne
  exact ⟨hrole, _, hcut, by decide +kernel, htail, hremap, hne⟩

end NameRole

end JvmRelocation
