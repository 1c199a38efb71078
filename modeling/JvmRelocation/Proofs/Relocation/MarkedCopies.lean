import JvmRelocation.Proofs.ClassFile.MarkerStability
import JvmRelocation.Proofs.Name.TaggedSignatures
import JvmRelocation.Proofs.Relocation.Validity

/-!
# Markers of relocated classes

Renaming neither adds a marker nor takes one away, unless it is about the marker's own class. So the
copies that discovery writes carry the marker for which their classes were chosen.
-/

namespace JvmRelocation

open ModifiedUtf8 StoreProgram

/-- A valid marker names a class without semicolons. -/
theorem not_mem_of_validateMarker {x : String} (h : validateMarker ("L" ++ x ++ ";") = .ok ()) :
    ';' ∉ x.toList := by
  have hname : objectTypeName? ("L" ++ x ++ ";").toList = some x.toList := by
    simp [objectTypeName?, String.toList_append]
  have hfault := refuseFault_eq_ok h
  rw [markerFault?, hname] at hfault
  dsimp only at hfault
  split at hfault
  case isTrue => cases hfault
  case isFalse =>
    split at hfault
    case isTrue => cases hfault
    case isFalse hallowed =>
      intro hmem
      exact hallowed (List.any_eq_true.mpr ⟨';', hmem, by decide⟩)

namespace LoadedClass

/-- The result of a renaming, when it is read again, is the renamed structure. -/
theorem renamedBy_of_parse {source : Bytes} {c d : LoadedClass} {m : NameMapper} {s : Substitution}
    (hparse : parse source = .ok c) (hsub : c.substitute m = .ok s) (hfits : c.Fits m)
    (hd : parse s.bytes = .ok d) : c.toClassFile.Readable ∧
      ∃ pool changes, ClassFile.RenamedBy m c.toClassFile d.toClassFile pool changes := by
  obtain ⟨found, c', pool, changes, hfound, hrenamed, hbytes⟩ := substitute_eq_ok hparse hsub
  obtain ⟨hclass, -⟩ := parse_renamed_eq_ok hparse hrenamed hfits (hbytes ▸ hd)
  exact ⟨(ClassFile.nameSites_eq_ok.mp hfound).1.1, pool, changes, hclass ▸ hrenamed⟩

end LoadedClass

/-- The target is the only new name. -/
theorem single_ne_some {source target x : String} (h : x ≠ target) (y : String) :
    NameMapper.single source target y ≠ some x := by
  intro hy
  rw [NameMapper.single] at hy
  split at hy
  · exact h (Option.some.inj hy).symm
  · cases hy

/-- A class that discovery relocates gets a name that is usable as a path. -/
theorem isPathName_copied {tag : String} (htag : ValidTag tag) {source : Bytes} {c : LoadedClass}
    (hparse : LoadedClass.parse source = .ok c) :
    isPathName (NameRole.className.renamed
      (.single c.declaredName (relocatedName tag c.declaredName)) c.declaredName) = true := by
  have hname := (ClassFile.resolveHeader_eq_ok.mp (LoadedClass.parse_ok hparse).2.1).2.1
  refine isPathName_renamed (tags_single tag c.declaredName) htag (fun name hmapped => ?_) hname
  by_cases heq : name = c.declaredName
  · exact heq ▸ hname
  · rw [single_eq_none heq] at hmapped
    cases hmapped

/-- **Renaming neither adds nor removes a marker.** Where a mapper keeps the name in a marker and
gives it to no other class, a class that is renamed and read again carries the marker exactly if it
did before; only an attribute whose name had an index behind the end of the pool must not be given
one of the two names by an appended text. So every class that discovery relocates, the marker's own
class excepted, is read back from what discovery writes and carries the marker there. -/
theorem substitute_keeps_markers :
    (∀ (source : Bytes) (c d : LoadedClass) (m : NameMapper) (s : Substitution) (x : String),
      LoadedClass.parse source = .ok c → c.substitute m = .ok s → c.Fits m →
      LoadedClass.parse s.bytes = .ok d → validateMarker ("L" ++ x ++ ";") = .ok () →
      m.rename x = x → (∀ y, m y = some x → y = x) →
      (∀ a ∈ c.attributes, c.pool.count ≤ a.nameIndex.toNat →
        ¬d.pool.NamesAnnotations a.nameIndex) →
      d.hasMarker ("L" ++ x ++ ";") = c.hasMarker ("L" ++ x ++ ";")) ∧
    ∀ (tag x : String) (input output output' : MemoryStore) (found : Discovery),
      validateTag tag = .ok () → validateMarker ("L" ++ x ++ ";") = .ok () →
      (discover tag ("L" ++ x ++ ";")).Yields input output found output' →
      ∀ path ∈ input.classPaths, ∀ c, input.class? path = some c →
        c.hasMarker ("L" ++ x ++ ";") = true → c.declaredName ≠ x →
        c.Fits (.single c.declaredName (relocatedName tag c.declaredName)) →
        ∃ d, output'.class? (classPath (relocatedName tag c.declaredName)) = some d ∧
          d.hasMarker ("L" ++ x ++ ";") = true := by
  constructor
  · intro source c d m s x hparse hsub hfits hd hmarker hkept honly hbehind
    have hx := not_mem_of_validateMarker hmarker
    obtain ⟨hreadable, pool, changes, hrenamed⟩ :=
      LoadedClass.renamedBy_of_parse hparse hsub hfits hd
    rw [Bool.eq_iff_iff]
    exact ⟨hrenamed.hasMarker_of_renamed hreadable hx hkept honly hbehind,
      hrenamed.hasMarker_of_kept hreadable hx hkept⟩
  · intro tag x input output output' found htag hmarker hdiscover path hpath c hclass hmarked hne hfits
    have hx := not_mem_of_validateMarker hmarker
    have hvalid := validTag_of_tagFault? (refuseFault_eq_ok htag)
    obtain ⟨classes, hfound⟩ := yields_discover hdiscover
    have hc : (path, c) ∈ classes := hfound.mem_classes.mpr ⟨hpath, hclass⟩
    obtain ⟨s, hsub, hcopied⟩ := hfound.copied _ hc hmarked
    obtain ⟨source, -, hparse⟩ := MemoryStore.class?_eq_some.mp hclass
    obtain ⟨d, hd⟩ := LoadedClass.exists_parse_of_substitute hparse hsub hfits
      (isPathName_copied hvalid hparse)
    obtain ⟨hreadable, pool, changes, hrenamed⟩ :=
      LoadedClass.renamedBy_of_parse hparse hsub hfits hd
    -- only the class itself is renamed, and that is not the one in the marker
    have hkept : (NameMapper.single c.declaredName (relocatedName tag c.declaredName)).rename x = x := by
      rw [NameMapper.rename, single_eq_none (Ne.symm hne)]
      rfl
    exact ⟨d, MemoryStore.class?_eq_some.mpr ⟨_, hcopied, hd⟩,
      hrenamed.hasMarker_of_kept hreadable hx hkept hmarked⟩

theorem substitute_keeps_markers_surveySample :
    (∃ c s d, LoadedClass.parse (LoadedClass.built "p/A" (ClassBuilder.addVisible "Lq/M;")) = .ok c ∧
      c.substitute (.single "p/A" "v1/p/A") = .ok s ∧ LoadedClass.parse s.bytes = .ok d ∧
      c.hasMarker "Lq/M;" = true ∧ d.hasMarker "Lq/M;" = true) ∧
    ∃ found output', (discover "v1" defaultMarker).Yields (surveySample "q/U.class") .empty found
        output' ∧
      ∃ d, output'.class? "v1/p/A.class" = some d ∧ d.hasMarker defaultMarker = true := by
  constructor
  · have hcheck : ((LoadedClass.parse (LoadedClass.built "p/A"
        (ClassBuilder.addVisible "Lq/M;"))).toOption.any fun c =>
          c.Fits (.single "p/A" "v1/p/A") && c.hasMarker "Lq/M;" &&
            (c.attributes.toList.all fun a => a.nameIndex.toNat < c.pool.count) &&
            (c.substitute (.single "p/A" "v1/p/A")).toOption.any fun s =>
              (LoadedClass.parse s.bytes).isOk) = true := by
      decide +kernel
    obtain ⟨c, hparse, hcheck⟩ := exists_ok_of_any hcheck
    simp only [Bool.and_eq_true, decide_eq_true_eq, List.all_eq_true] at hcheck
    obtain ⟨⟨⟨hfits, hmarked⟩, hindices⟩, hcheck⟩ := hcheck
    obtain ⟨s, hsub, hd⟩ := exists_ok_of_any hcheck
    obtain ⟨d, hd⟩ := isOk_iff.mp hd
    have honly (y : String) (hy : NameMapper.single "p/A" "v1/p/A" y = some "q/M") : y = "q/M" :=
      absurd hy (single_ne_some (by decide) y)
    have hsame := substitute_keeps_markers.1 _ c d (.single "p/A" "v1/p/A") s "q/M" hparse hsub hfits
      hd rfl (by decide) honly fun a ha hbehind =>
        absurd (hindices a (Array.mem_toList_iff.mpr ha)) (Nat.not_lt.mpr hbehind)
    exact ⟨c, s, d, hparse, hsub, hd, hmarked, hsame.trans hmarked⟩
  · have hrun : (((discover "v1" defaultMarker).on (surveySample "q/U.class") .empty).1.toOption.any
        fun _ => true) = true := by
      decide +kernel
    have hcheck : (((surveySample "q/U.class").class? "p/A.class").any fun c =>
        c.hasMarker defaultMarker && c.declaredName = "p/A" &&
          c.Fits (.single c.declaredName (relocatedName "v1" c.declaredName))) = true := by
      decide +kernel
    obtain ⟨found, hyields, -⟩ := exists_yields_of_any hrun
    simp only [Option.any_eq_true, Bool.and_eq_true, decide_eq_true_eq] at hcheck
    obtain ⟨c, hclass, ⟨hmarked, hname⟩, hfits⟩ := hcheck
    have hcopy := substitute_keeps_markers.2 "v1" "org/eolang/Versionized" _ _ _ found rfl rfl hyields
      "p/A.class" (by decide +kernel) c hclass hmarked (by rw [hname]; decide) hfits
    rw [hname] at hcopy
    exact ⟨found, _, hyields, hcopy⟩

/-- A class with an attribute whose name has the first index behind the end of the pool and whose
body applies the annotation `q/M`. The text of the class's own name is pinned by a literal. -/
def danglingMarkerSample : Bytes :=
  LoadedClass.built "p/A" do
    discard (ClassBuilder.literal "p/A")
    discard (ClassBuilder.text "Lq/M;")
    ClassBuilder.pushAttribute (pure ⟨7, #[0, 1, 0, 6, 0, 0]⟩)

/-- Without the last condition a renaming may add the marker: the text that is appended gives the
attribute its name. -/
theorem substitute_adds_marker :
    ¬∀ (source : Bytes) (c d : LoadedClass) (m : NameMapper) (s : Substitution) (x : String),
      LoadedClass.parse source = .ok c → c.substitute m = .ok s → c.Fits m →
      LoadedClass.parse s.bytes = .ok d → validateMarker ("L" ++ x ++ ";") = .ok () →
      m.rename x = x → (∀ y, m y = some x → y = x) →
      d.hasMarker ("L" ++ x ++ ";") = c.hasMarker ("L" ++ x ++ ";") := by
  intro hall
  have hcheck : ((LoadedClass.parse danglingMarkerSample).toOption.any fun c =>
      c.Fits (.single "p/A" "RuntimeVisibleAnnotations") && !c.hasMarker "Lq/M;" &&
        (c.substitute (.single "p/A" "RuntimeVisibleAnnotations")).toOption.any fun s =>
          (LoadedClass.parse s.bytes).toOption.any fun d => d.hasMarker "Lq/M;") = true := by
    decide +kernel
  obtain ⟨c, hparse, hcheck⟩ := exists_ok_of_any hcheck
  simp only [Bool.and_eq_true, decide_eq_true_eq, Bool.not_eq_true'] at hcheck
  obtain ⟨⟨hfits, hunmarked⟩, hcheck⟩ := hcheck
  obtain ⟨s, hsub, hcheck⟩ := exists_ok_of_any hcheck
  obtain ⟨d, hd, hmarked⟩ := exists_ok_of_any hcheck
  have honly (y : String)
      (hy : NameMapper.single "p/A" "RuntimeVisibleAnnotations" y = some "q/M") : y = "q/M" :=
    absurd hy (single_ne_some (by decide) y)
  have hsame := hall _ c d _ s "q/M" hparse hsub hfits hd rfl (by decide) honly
  rw [show "L" ++ "q/M" ++ ";" = "Lq/M;" from rfl, hmarked, hunmarked] at hsame
  cases hsame

end JvmRelocation
