import JvmRelocation.Proofs.Name.TaggedTwice
import JvmRelocation.Proofs.Relocation.PhaseAgreement

/-!
# Renaming the result of a renaming

A table puts classes below a tag, and no new name is an old one. So what a class refers to after a
renaming by the table has no new name any more, and renaming the result by the same table gives the
bytes back. Only an inner class whose simple name is cut can be taken for another one.
-/

namespace JvmRelocation

/-! ## Tables -/

/-- No name that a table has an entry for starts with the given text. -/
theorem RelocationTable.mapper_append_eq_none {table : RelocationTable} {front : String} :
    (∀ rest, table.mapper (front ++ rest) = none) ↔
      ∀ name ∈ table.relocated.keys, ¬front.toList <+: name.toList := by
  have hentry (name : String) : table.mapper name = none ↔ name ∉ table.relocated.keys := by
    rw [← Option.not_isSome_iff_eq_none, isSome_mapper, contains, Std.TreeMap.contains_iff_mem,
      Std.TreeMap.mem_keys]
  simp only [hentry]
  constructor
  · rintro hnone name hname ⟨rest, heq⟩
    refine hnone (String.ofList rest) ?_
    rwa [show front ++ String.ofList rest = name from String.toList_inj.mp (by simp [heq])]
  · intro hnone rest hrest
    exact hnone _ hrest ⟨rest.toList, by rw [String.toList_append]⟩

instance (tag : String) (table : RelocationTable) (s : InnerSegment) :
    Decidable (s.Lasting tag table.mapper) :=
  decidable_of_iff
    ((table.mapper s.outermost = none → table.mapper s.enclosing = none →
        (table.mapper s.full).isSome = true → s.rewritten tag = s.simple ∨
          ∀ name ∈ table.relocated.keys,
            ¬(innerName s.enclosing (s.rewritten tag)).toList <+: name.toList) ∧
      ((table.mapper s.outermost).isSome = true →
        table.mapper (relocatedName tag s.enclosing) = none →
        (table.mapper (relocatedName tag s.full)).isSome = true → s.rewritten tag = s.simple)) <| by
    rw [← RelocationTable.mapper_append_eq_none]
    exact ⟨fun h => ⟨h.1, h.2⟩, fun h => ⟨h.1, h.2⟩⟩

/-! ## Classes -/

namespace LoadedClass

/-- **Renaming twice is renaming once.** Where every class goes to its old name below the tag and no
new name is an old one, renaming the result of a renaming changes nothing. The texts that are written
have to fit, the tag must not hold the bracket that ends a class name in a signature, and the inner
classes in the signatures of the class have to be left alone. -/
theorem substitute_twice {tag : String} {m : NameMapper} (htag : tagFault? tag = none)
    (hm : Tags tag m) (hfresh : ∀ name, (m name).isSome = true → m (relocatedName tag name) = none)
    {source : Bytes} {c d : LoadedClass} {s : Substitution} (hparse : parse source = .ok c)
    (hsub : c.substitute m = .ok s) (hd : parse s.bytes = .ok d) (hfits : c.Fits m)
    (hbracket : '<' ∉ tag.toList)
    (hlasting : ∀ e ∈ c.siteTexts, ∀ segment ∈ e.1.innerSegments e.2, segment.Lasting tag m) :
    d.substitute m = .ok ⟨s.bytes, false⟩ := by
  have hvalid := validTag_of_tagFault? htag
  have hstaged : Staged tag m m := ⟨fun _ _ htarget => htarget, hm, hfresh⟩
  obtain ⟨-, found, found', hfound, hfound', hsites⟩ :=
    sitesRenamed_of_tags hm hvalid hbracket hparse hsub hfits hd
  rw [← (LoadedClass.parse_ok hd).1]
  refine substitute_of_remap hfound' fun s' hs' w hw => ?_
  obtain ⟨v, hv, rfl⟩ := ClassFile.siteTexts_of_renamed hfound hfound' hsites
    ((ClassFile.mem_siteTexts hfound').mpr ⟨s', hs', hw, rfl⟩)
  exact NameRole.remap_renamed hstaged hvalid hbracket (hlasting _ hv)

end LoadedClass

/-! ### Classes that are renamed twice -/

/-- Checks that the class of the given name can be renamed by the table of its store, and that the
table, the class and what is read from the result have a property. -/
def checkTwice (tag name : String) (input : MemoryStore)
    (P : RelocationTable → LoadedClass → LoadedClass → Prop)
    [∀ table c d, Decidable (P table c d)] : Bool :=
  ((discover tag defaultMarker).on input .empty).1.toOption.any fun found =>
    (input.class? (classPath name)).any fun c =>
      (c.substitute found.table.mapper).toOption.any fun s =>
        (LoadedClass.parse s.bytes).toOption.any fun d =>
          c.Fits found.table.mapper && P found.table c d

theorem exists_twice {tag name : String} {input : MemoryStore}
    {P : RelocationTable → LoadedClass → LoadedClass → Prop} [∀ table c d, Decidable (P table c d)]
    (hcheck : checkTwice tag name input P = true) :
    ∃ found copied source c s d, (discover tag defaultMarker).Yields input .empty found copied ∧
      LoadedClass.parse source = .ok c ∧ c.substitute found.table.mapper = .ok s ∧
      LoadedClass.parse s.bytes = .ok d ∧ c.Fits found.table.mapper ∧ P found.table c d := by
  obtain ⟨found, hfound, hcheck⟩ := exists_ok_of_any hcheck
  obtain ⟨c, hclass, hcheck⟩ := (Option.any_eq_true _ _).mp hcheck
  obtain ⟨s, hsub, hcheck⟩ := exists_ok_of_any hcheck
  obtain ⟨d, hd, hcheck⟩ := exists_ok_of_any hcheck
  simp only [Bool.and_eq_true, decide_eq_true_eq] at hcheck
  obtain ⟨source, -, hparse⟩ := MemoryStore.class?_eq_some.mp hclass
  exact ⟨found, _, source, c, s, d, Prod.ext hfound rfl, hparse, hsub, hd, hcheck.1, hcheck.2⟩

/-- A marked inner class whose simple name is cut, since its outermost class keeps its name, beside
an inner class of another marked class. -/
def cutOnceSample : MemoryStore :=
  signatureSample "p/A$a$b" "Lp/A.a$b;Lp/B<Lp/B$C;>.C;" ["p/B", "p/B$C"]

theorem LoadedClass.substitute_twice_cutOnce :
    tagFault? "v1" = none ∧ '<' ∉ "v1".toList ∧ ∃ m source c d s, Tags "v1" m ∧
      (∀ name, (m name).isSome = true → m (relocatedName "v1" name) = none) ∧
      LoadedClass.parse source = .ok c ∧ c.substitute m = .ok s ∧ LoadedClass.parse s.bytes = .ok d ∧
      c.Fits m ∧ (∀ e ∈ c.siteTexts, ∀ segment ∈ e.1.innerSegments e.2, segment.Lasting "v1" m) ∧
      (.signature, "Lp/A.b;Lv1/p/B<Lv1/p/B$C;>.C;") ∈ d.siteTexts ∧
      d.substitute m = .ok ⟨s.bytes, false⟩ := by
  obtain ⟨found, copied, source, c, s, d, hdiscover, hparse, hsub, hd, hfits, hlasting, htext⟩ :=
    exists_twice (show checkTwice "v1" "p/A$a$b" cutOnceSample (fun table c d =>
      (∀ e ∈ c.siteTexts, ∀ segment ∈ e.1.innerSegments e.2, segment.Lasting "v1" table.mapper) ∧
        (.signature, "Lp/A.b;Lv1/p/B<Lv1/p/B$C;>.C;") ∈ d.siteTexts) = true by decide +kernel)
  obtain ⟨classes, h⟩ := yields_discover hdiscover
  obtain ⟨-, htags, hfresh⟩ := h.staged fun _ _ htarget => htarget
  exact ⟨by decide, by decide, found.table.mapper, source, c, d, s, htags, hfresh, hparse, hsub, hd,
    hfits, hlasting, htext, LoadedClass.substitute_twice (by decide) htags hfresh hparse hsub hd hfits
      (by decide) hlasting⟩

/-- Renaming the result of a renaming changes nothing, for every class and every table that a
discovery has found, if the tag, the table and the class are as required. -/
def SettleIf (required : String → RelocationTable → LoadedClass → Prop) : Prop :=
  ∀ (tag marker : String) (input output copied : MemoryStore) (found : Discovery) (source : Bytes)
    (c d : LoadedClass) (s : Substitution), tagFault? tag = none →
    (discover tag marker).Yields input output found copied →
    LoadedClass.parse source = .ok c → c.substitute found.table.mapper = .ok s →
    LoadedClass.parse s.bytes = .ok d → c.Fits found.table.mapper → required tag found.table c →
    d.substitute found.table.mapper = .ok ⟨s.bytes, false⟩

/-- A class that is as required and is changed again. -/
theorem not_settleIf (tag name : String) (input : MemoryStore)
    {required : String → RelocationTable → LoadedClass → Prop}
    [∀ table c, Decidable (required tag table c)] (htag : tagFault? tag = none)
    (hcheck : checkTwice tag name input (fun table c d =>
      (d.substitute table.mapper).toOption.any (·.changed) = true ∧ required tag table c) = true) :
    ¬SettleIf required := by
  intro hall
  obtain ⟨found, copied, source, c, s, d, hdiscover, hparse, hsub, hd, hfits, hchanged, hrequired⟩ :=
    exists_twice hcheck
  rw [hall tag defaultMarker input .empty copied found source c d s htag hdiscover hparse hsub hd
    hfits hrequired] at hchanged
  cases hchanged

/-- A marked inner class whose simple name is cut, where another marked class is named like an inner
class of what that leaves. -/
def cutAgainSample : MemoryStore :=
  signatureSample "p/A$a$b" "Lp/A.a$b.c$d;" ["p/A$b$c$d"]

/-- A marked class with a type argument, where another marked class is named like the tag up to its
bracket. -/
def bracketTagSample : MemoryStore :=
  signatureSample "p/A" "Lp/A<Lq/B;>;" ["x"]

/-- Neither inner classes of an unmarked outermost class nor those of a marked one can be left out of
what is required, and neither can the bracket in the tag. -/
theorem LoadedClass.substitute_changes_twice :
    (¬SettleIf fun tag table c => '<' ∉ tag.toList ∧
      ∀ e ∈ c.siteTexts, ∀ segment ∈ e.1.innerSegments e.2,
        (table.mapper segment.outermost).isSome = true → segment.Lasting tag table.mapper) ∧
    (¬SettleIf fun tag table c => '<' ∉ tag.toList ∧
      ∀ e ∈ c.siteTexts, ∀ segment ∈ e.1.innerSegments e.2,
        table.mapper segment.outermost = none → segment.Lasting tag table.mapper) ∧
    ¬SettleIf fun tag table c => ∀ e ∈ c.siteTexts, ∀ segment ∈ e.1.innerSegments e.2,
      segment.Lasting tag table.mapper := by
  refine ⟨?_, ?_, ?_⟩
  · exact not_settleIf "v1" "p/A$a$b" cutAgainSample (by decide) (by decide +kernel)
  · exact not_settleIf "v1" "p/A" dollarOuterSample (by decide) (by decide +kernel)
  · exact not_settleIf "x<TV" "p/A" bracketTagSample (by decide) (by decide +kernel)

end JvmRelocation
