import JvmRelocation.Proofs.Name.StagedTexts

/-!
# Signatures under a tag

A renaming writes the tag into every name that it puts below it. The check of a tag refuses the slash,
the dot and the semicolon, each of which ends something in a name or in a signature, but not the opening
bracket, behind which a signature has type arguments. Without a bracket in the tag, whatever a renaming
makes of a signature is one. With a bracket, the new name is cut where the bracket stands, and what is
left of it is no list of arguments: the slash behind the tag stands in no type that has no semicolon.
-/

namespace JvmRelocation

/-! ## Texts without a semicolon -/

/-- Only the name of a class or of a variable holds a slash, and a semicolon ends either. -/
theorem TypeSignature.slash_not_mem {t : TypeSignature} (h : t.Proper) {rest : List Char}
    (hsemicolon : ';' ∉ t.textBefore rest) (hrest : '/' ∉ rest) : '/' ∉ t.textBefore rest := by
  match t with
  | .base letter =>
    rw [textBefore, List.mem_cons, not_or]
    refine ⟨?_, hrest⟩
    rintro rfl
    cases h
  | .array element =>
    rw [textBefore, List.mem_cons, not_or] at hsemicolon ⊢
    exact ⟨by decide, TypeSignature.slash_not_mem (t := element) h hsemicolon.2 hrest⟩
  | .typeVariable name =>
    rw [textBefore] at hsemicolon
    simp at hsemicolon
  | .classType name suffixes =>
    rw [textBefore, TypeSuffix.listTextBefore_eq_append] at hsemicolon
    simp at hsemicolon

/-- Type arguments that hold no semicolon hold no slash. -/
theorem TypeArgument.slash_not_mem {list : List TypeArgument} (h : TypeArgument.ListProper list)
    {rest : List Char} (hsemicolon : ';' ∉ TypeArgument.listTextBefore list rest)
    (hrest : '/' ∉ rest) : '/' ∉ TypeArgument.listTextBefore list rest := by
  have htype {t : TypeSignature} (ht : t.Proper) {text : List Char}
      (hnone : ';' ∉ t.textBefore text) (htext : ';' ∉ text → '/' ∉ text) :
      '/' ∉ t.textBefore text := by
    apply t.slash_not_mem ht hnone
    apply htext
    rw [t.textBefore_eq_append, List.mem_append, not_or] at hnone
    exact hnone.2
  induction list with
  | nil => exact hrest
  | cons argument list ih =>
    cases argument with
    | wildcard =>
      rw [listTextBefore, List.mem_cons, not_or] at hsemicolon ⊢
      exact ⟨by decide, ih h hsemicolon.2⟩
    | subtypeOf bound | supertypeOf bound =>
      rw [listTextBefore, List.mem_cons, not_or] at hsemicolon ⊢
      exact ⟨by decide, htype h.1 hsemicolon.2 (ih h.2)⟩
    | exactly type =>
      rw [listTextBefore] at hsemicolon ⊢
      exact htype h.1 hsemicolon (ih h.2)

/-- What follows the name of a class holds no slash if it holds no semicolon and no inner class. -/
theorem TypeSuffix.slash_not_mem {list : List TypeSuffix} (h : TypeSuffix.ListProper list)
    (hsemicolon : ';' ∉ TypeSuffix.listTextBefore list [])
    (hdot : '.' ∉ TypeSuffix.listTextBefore list []) : '/' ∉ TypeSuffix.listTextBefore list [] := by
  induction list with
  | nil => exact List.not_mem_nil
  | cons suffix list ih =>
    cases suffix with
    | inner name =>
      rw [listTextBefore] at hdot
      exact absurd List.mem_cons_self hdot
    | arguments inside =>
      rw [listTextBefore, List.mem_cons, not_or] at hsemicolon hdot ⊢
      refine ⟨by decide, TypeArgument.slash_not_mem h.1 hsemicolon.2 ?_⟩
      rw [TypeArgument.listTextBefore_eq_append, List.mem_append, List.mem_cons] at hsemicolon hdot
      rw [List.mem_cons, not_or]
      exact ⟨by decide, ih h.2 (fun hmem => hsemicolon.2 (.inr (.inr hmem)))
        fun hmem => hdot.2 (.inr (.inr hmem))⟩

/-! ## A bracket in the tag -/

/-- What stands in front of the only semicolon of a text. -/
theorem front_eq_of_semicolon {front front' rest : List Char}
    (h : front ++ ';' :: rest = front' ++ [';']) (hnone : ';' ∉ front') : front = front' := by
  rcases List.append_eq_append_iff.mp h with ⟨more, rfl, hmore⟩ | ⟨more, rfl, hmore⟩
  · cases more with
    | nil => rw [List.append_nil]
    | cons c more =>
      obtain ⟨rfl, -⟩ := List.cons.inj hmore
      simp at hnone
  · cases more with
    | nil => rw [List.append_nil]
    | cons c more => simp at hmore

/-- In a class type without inner classes that has one semicolon only, a slash stands in the name, so
that no bracket stands in front of it. -/
theorem TypeSignature.bracket_not_mem {t : TypeSignature} (h : t.Proper)
    {rest before after : List Char}
    (htext : t.textBefore rest = 'L' :: (before ++ '/' :: after) ++ [';'])
    (hsemicolon : ';' ∉ before ++ '/' :: after) (hdot : '.' ∉ before ++ '/' :: after) :
    '<' ∉ before := by
  cases t with
  | base letter =>
    obtain ⟨rfl, -⟩ := List.cons.inj htext
    cases h
  | array element => cases (List.cons.inj htext).1
  | typeVariable name => cases (List.cons.inj htext).1
  | classType name suffixes =>
    obtain ⟨hname, hsuffixes⟩ := h
    obtain ⟨-, htext⟩ := List.cons.inj htext
    have hfront : name.toList ++ TypeSuffix.listTextBefore suffixes [] = before ++ '/' :: after := by
      rw [TypeSuffix.listTextBefore_eq_append, ← List.append_assoc] at htext
      exact front_eq_of_semicolon htext hsemicolon
    rw [← hfront, List.mem_append, not_or] at hsemicolon
    rw [← hfront, List.mem_append, not_or] at hdot
    have hslash : '/' ∉ TypeSuffix.listTextBefore suffixes [] :=
      TypeSuffix.slash_not_mem hsuffixes hsemicolon.2 hdot.2
    rcases List.append_eq_append_iff.mp hfront with ⟨more, -, hmore⟩ | ⟨more, hmore, -⟩
    · -- the slash would stand behind the name
      rw [hmore] at hslash
      simp at hslash
    · intro hmem
      have hbracket := hname '<' (hmore ▸ List.mem_append_left _ hmem)
      cases hbracket

/-- A class type whose name lies below a tag with a bracket is none any more. -/
theorem parse_of_bracket {tag : String} (htag : ValidTag tag) (hbracket : '<' ∈ tag.toList) :
    Signature.parse ("L" ++ relocatedName tag "a" ++ ";") = none := by
  by_contra hsome
  obtain ⟨⟨formals, body⟩, hparse⟩ := Option.ne_none_iff_exists'.mp hsome
  obtain ⟨⟨-, hbody⟩, htext⟩ := Signature.parse_eq_some.mp hparse
  have hchars : Signature.toText ⟨formals, body⟩ = 'L' :: (tag.toList ++ '/' :: ['a']) ++ [';'] := by
    have hlist := congrArg String.toList htext
    rw [String.toList_ofList] at hlist
    rw [← hlist]
    simp [relocatedName]
  have hnone {c : Char} (hc : ['/', '\\', '.', ';', '['].contains c = true)
      (hne : c ∉ ['/', 'a']) : c ∉ tag.toList ++ '/' :: ['a'] := by
    rw [List.mem_append, not_or]
    exact ⟨htag.not_mem hc, hne⟩
  cases formals with
  | some list => cases hchars
  | none =>
    cases body with
    | method parameters result thrown => cases hchars
    | types list =>
      cases list with
      | nil => cases hchars
      | cons t list =>
        have hproper : t.Proper := hbody.2 t List.mem_cons_self
        exact t.bracket_not_mem hproper hchars (hnone (by decide) (by decide))
          (hnone (by decide) (by decide)) hbracket

theorem tags_single (tag name : String) : Tags tag (.single name (relocatedName tag name)) := by
  intro name' target htarget
  rw [NameMapper.single] at htarget
  split at htarget
  case isTrue hname =>
    subst hname
    exact (Option.some.inj htarget).symm
  case isFalse => cases htarget

/-- A renaming of one class below a tag puts the tag into the signature of the class. -/
theorem remap_single_below_tag (tag : String) :
    Signature.remap (.single "a" (relocatedName tag "a")) "La;" =
      .ok (some ("L" ++ relocatedName tag "a" ++ ";")) := by
  have hread : ∃ c, Signature.read "La;".toList =
      .ok ⟨none, .types [.classType "a" []]⟩ c := ⟨_, rfl⟩
  obtain ⟨c, hread⟩ := hread
  have hne : relocatedName tag "a" ≠ "a" := by
    intro heq
    have hlength := congrArg String.length heq
    rw [relocatedName, String.length_append, String.length_append] at hlength
    simp at hlength
  have hrename : Signature.rename (.single "a" (relocatedName tag "a"))
      ⟨none, .types [.classType "a" []]⟩ =
        ⟨none, .types [.classType (relocatedName tag "a") []]⟩ := by
    simp [Signature.rename, SignatureBody.rename, TypeSignature.rename, TypeSuffix.renameList,
      NameMapper.rename, single_self]
  have hlabels (name : String) :
      Signature.labels ⟨none, .types [.classType name []]⟩ = [name] := rfl
  rw [Signature.remap, hread]
  dsimp only
  rw [hrename, hlabels, hlabels, if_neg fun heq => hne (List.cons.inj heq).1]
  congr 2
  apply String.toList_inj.mp
  simp [Signature.toText, SignatureBody.textBefore, TypeSignature.listTextBefore,
    TypeSignature.textBefore, TypeSuffix.listTextBefore]

/-! ## Signatures under a tag -/

/-- **A tag keeps signatures readable exactly if it has no opening bracket**: whatever a renaming
below the tag makes of a signature is then a signature, for every mapper. -/
theorem remap_below_tag_readable_iff {tag : String} (h : validateTag tag = .ok ()) :
    (∀ m, Tags tag m → ∀ text renamed, Signature.remap m text = .ok (some renamed) →
      ∀ m', ∃ result, Signature.remap m' renamed = .ok result) ↔ '<' ∉ tag.toList := by
  have htag := validTag_of_tagFault? (refuseFault_eq_ok h)
  constructor
  · intro hreadable hbracket
    have hremap := remap_single_below_tag tag
    obtain ⟨result, hresult⟩ := hreadable _ (tags_single tag "a") _ _ hremap fun _ => none
    obtain ⟨s, hparse⟩ := Signature.exists_remap_iff.mp ⟨result, hresult⟩
    rw [parse_of_bracket htag hbracket] at hparse
    cases hparse
  · intro hbracket m hm text renamed hremap m'
    obtain ⟨s, hparse, rfl⟩ := Signature.parse_of_remap hremap
    obtain ⟨hproper, -⟩ := Signature.parse_eq_some.mp hparse
    have hkeeps := hm.keepsLabels (htag.properLabel hbracket)
    exact Signature.exists_remap_iff.mpr
      ⟨_, Signature.parse_eq_some.mpr ⟨hproper.rename hkeeps, rfl⟩⟩

theorem remap_below_tag_readable_plain : validateTag "v1" = .ok () ∧
    ∀ m, Tags "v1" m → ∀ text renamed, Signature.remap m text = .ok (some renamed) →
      ∀ m', ∃ result, Signature.remap m' renamed = .ok result :=
  have h : validateTag "v1" = .ok () := by rfl
  ⟨h, (remap_below_tag_readable_iff h).mpr (by decide)⟩

/-- The tag `x<` passes the check, and makes of a signature what is none. -/
theorem remap_below_tag_unreadable :
    ¬∀ tag, validateTag tag = .ok () → ∀ m, Tags tag m → ∀ text renamed,
      Signature.remap m text = .ok (some renamed) →
        ∀ m', ∃ result, Signature.remap m' renamed = .ok result := by
  intro hall
  have hremap : Signature.remap (.single "p/A" (relocatedName "x<" "p/A")) "Lp/A;" =
      .ok (some "Lx</p/A;") := by
    decide +kernel
  have hrefused : Signature.remap (fun _ => none) "Lx</p/A;" = .error 3 := by decide +kernel
  obtain ⟨result, hresult⟩ := hall "x<" rfl _ (tags_single "x<" "p/A") _ _ hremap fun _ => none
  rw [hrefused] at hresult
  cases hresult

end JvmRelocation
