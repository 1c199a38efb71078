import JvmRelocation.Proofs.ClassFile.LookedUpNames
import JvmRelocation.Proofs.ClassFile.RoomForTexts
import JvmRelocation.Proofs.Name.ChangedTexts

/-!
# Whether a renaming changes a class

What becomes of a text is another text, so a class with a text to rewrite is written as other bytes:
appended texts raise the count of the pool, and texts rewritten where they stand are read back as
what they are now. The second reason needs texts that fit their length fields. Without it a class
can be rewritten to the bytes it had, and the renaming reports no change.
-/

namespace JvmRelocation

open ModifiedUtf8 TextReference BigEndian

/-! ## Equal bytes -/

theorem BigEndian.bytes16_inj {v w : UInt16} (h : bytes16 v = bytes16 w) : v = w := by
  obtain ⟨hhigh, hlow⟩ : UInt8.ofNat (v.toNat / 256) = UInt8.ofNat (w.toNat / 256) ∧
      UInt8.ofNat v.toNat = UInt8.ofNat w.toNat := by
    simpa [bytes16] using h
  rw [← word16_bytes16 v, ← word16_bytes16 w, hhigh, hlow]

namespace ClassFile

variable {c c' : ClassFile}

/-- The number of slots is among the bytes of a class, in front of all that varies in length. -/
theorem count_of_toBytes_eq (hcount : c.pool.count ≤ ConstantPool.maxCount)
    (hcount' : c'.pool.count ≤ ConstantPool.maxCount) (h : c'.toBytes = c.toBytes) :
    c'.pool.count = c.pool.count := by
  have hpool : c'.pool.toBytes ++ c'.bodyBytes = c.pool.toBytes ++ c.bodyBytes := by
    rw [toBytes_eq, toBytes_eq] at h
    have hminor := List.append_inj_right h rfl
    have hmajor := List.append_inj_right hminor rfl
    exact List.append_inj_right hmajor rfl
  rw [ConstantPool.toBytes, ConstantPool.toBytes, List.append_assoc, List.append_assoc] at hpool
  have hword := congrArg UInt16.toNat (bytes16_inj (List.append_inj_left hpool rfl))
  rw [UInt16.toNat_ofNat', UInt16.toNat_ofNat'] at hword
  unfold ConstantPool.maxCount at hcount hcount'
  omega

/-- Two structures that the format can store are equal if their bytes are. -/
theorem eq_of_toBytes_eq (h : c.WellFormed) (h' : c'.WellFormed) (hbytes : c'.toBytes = c.toBytes) :
    c' = c := by
  have hread := decode_complete h' 0 []
  rw [hbytes, decode_complete h 0 []] at hread
  exact (EStateM.Result.ok.inj hread).1.symm

/-! ## A class with a text to rewrite -/

variable {m : NameMapper} {pool : ConstantPool} {changes : Location → Option UInt16}
  {more : List String}

/-- **What is rewritten differs.** A class with a text to rewrite is written as other bytes if a
text is appended, or if each text that is rewritten where it stands fits its length field. -/
theorem RewrittenWith.toBytes_ne (h : c.RewrittenWith m c' more)
    (hby : RenamedBy m c c' pool changes) (hc : c.WellFormed)
    (hmore : ∀ w, w ∈ more ↔ c.NeedsSlot m w) (hrewrites : ∃ w, c.Rewrites m w)
    (hroom : (∃ w, c.NeedsSlot m w) ∨
      ∀ i w, c.AgreesOn m i w → (encode w).length ≤ 65535) : c'.toBytes ≠ c.toBytes := by
  intro hbytes
  -- as many slots as before, so nothing was appended
  have hcount' : c'.pool.count ≤ ConstantPool.maxCount := by
    rw [hby.pool_eq, ConstantPool.count_withIndices]
    exact hby.count_le
  have hcount := count_of_toBytes_eq hc.pool.count_le hcount' hbytes
  have hnone : ∀ w, ¬c.NeedsSlot m w := by
    intro w hw
    have hlength := List.length_pos_of_mem ((hmore w).mpr hw)
    have := h.count
    omega
  have hplace : ∀ s, TextReference.site s ∈ c.references → ∀ v w, c.pool.text? s.index = some v →
      s.role.remap m v = some w →
      c.AgreesOn m s.index w ∧ c'.pool.get? s.index = some (.utf8 (encode w)) := by
    intro s hs v w hv hw
    obtain ⟨hagrees, -, hget⟩ | ⟨hnot, -⟩ := h.site s hs v w hv hw
    · exact ⟨hagrees, hget⟩
    · exact absurd ⟨s, v, hs, hv, hw, hnot⟩ (hnone w)
  have hfits : c.Fits m := by
    rintro w ⟨found, hfound, s, hs, v, hv, hw⟩
    obtain ⟨w', hw'⟩ | hfits := hroom
    · exact absurd hw' (hnone w')
    · exact hfits _ w (hplace s ((mem_sites_of_nameSites hfound).mp hs) v w hv hw).1
  -- both structures are read back, so they are one, with the old text and the new one in a slot
  have heq := eq_of_toBytes_eq hc (hby.wellFormed hc hfits) hbytes
  obtain ⟨w, found, hfound, s, hs, v, hv, hw⟩ := hrewrites
  obtain ⟨-, hget⟩ := hplace s ((mem_sites_of_nameSites hfound).mp hs) v w hv hw
  rw [heq] at hget
  have hsame : c.pool.text? s.index = some w :=
    ConstantPool.text?_encode (ConstantPool.utf8Bytes_eq_ok.mpr hget)
  exact NameRole.ne_of_remap hw (Option.some.inj (hsame.symm.trans hv))

/-- What may be rewritten where it stands is rewritten. -/
theorem AgreesOn.rewrites {found : NameSites} (hfound : c.nameSites = .ok found) {i : UInt16}
    {w : String} (h : c.AgreesOn m i w) : c.Rewrites m w := by
  obtain ⟨s, hs, rfl⟩ := h.site
  obtain ⟨v, hv, hremap⟩ := h.remap
  exact ⟨found, hfound, s, (mem_sites_of_nameSites hfound).mpr hs, v, hv, hremap s hs rfl⟩

/-- A class refers to a name that a mapper gives another one. -/
def MentionsRenamed (c : ClassFile) (m : NameMapper) : Prop :=
  ∃ names, c.referencedNames = .ok names ∧
    ∃ name ∈ names, ∃ target, m name = some target ∧ target ≠ name

theorem MentionsRenamed.of_rewrites {w : String} (h : c.Rewrites m w) : c.MentionsRenamed m := by
  obtain ⟨found, hfound, s, hs, v, hv, hw⟩ := h
  obtain ⟨names, hnames⟩ : ∃ names, c.referencedNames = .ok names :=
    ⟨_, exceptBind_eq_ok.mpr ⟨found, hfound, rfl⟩⟩
  obtain ⟨name, hname, hchanged⟩ := NameRole.exists_renamed_of_remap hw
  have htext : (s.role, v) ∈ c.siteTexts := (mem_siteTexts hfound).mpr ⟨s, hs, hv, rfl⟩
  refine ⟨names, hnames, name, mem_referencedNames hnames htext hname, ?_⟩
  cases htarget : m name with
  | none => exact absurd (by rw [NameMapper.rename, htarget, Option.getD_none]) hchanged
  | some target =>
    rw [NameMapper.rename, htarget, Option.getD_some] at hchanged
    exact ⟨target, rfl, hchanged⟩

end ClassFile

namespace LoadedClass

variable {source : Bytes} {c : LoadedClass} {m : NameMapper} {s : Substitution}

/-- What a plan with something to do leads to. -/
theorem substitute_of_plan {found : NameSites} {plan : RenamingPlan} {c' : ClassFile}
    (hfound : c.nameSites = .ok found) (hplan : RenamingPlan.make m c.pool found = plan)
    (hsome : plan.isEmpty = false) (hcarry : c.carryOut plan = .ok c') :
    c.substitute m = .ok ⟨c'.toBytes, c'.toBytes != c.source⟩ := by
  rw [substitute_of_nameSites hfound, hplan, hsome, if_neg Bool.false_ne_true, hcarry]
  rfl

/-- A renaming keeps a class with nothing to rewrite, and writes any other one. -/
theorem substitute_cases (hparse : parse source = .ok c) (hsub : c.substitute m = .ok s) :
    ((∀ w, ¬c.Rewrites m w) ∧ s = ⟨source, false⟩) ∨
      ((∃ w, c.Rewrites m w) ∧ ∃ c' pool changes more,
        ClassFile.RenamedBy m c.toClassFile c' pool changes ∧ c.RewrittenWith m c' more ∧
        (∀ w, w ∈ more ↔ c.NeedsSlot m w) ∧ s = ⟨c'.toBytes, c'.toBytes != source⟩) := by
  have hcount := (wellFormed_of_parse hparse).pool.count_le
  have hsource := (parse_ok hparse).1
  obtain ⟨found, -, -, -, hfound, -, -⟩ := substitute_eq_ok hparse hsub
  rcases Nat.lt_or_ge ConstantPool.maxCount (c.pool.count + (c.ownTexts m found).length) with
    hover | hroom
  · rw [(substitute_without_room hcount hfound hover).2] at hsub
    cases hsub
  · obtain ⟨hnone, hkept⟩ | ⟨hsome, c', hcarry, hwritten, hrewritten⟩ :=
      substitute_with_room hcount hfound hroom
    · refine .inl ⟨hnone, ?_⟩
      rw [← hsource]
      exact Except.ok.inj (hsub.symm.trans hkept)
    · have hrenamed : c.renamed m = .ok c' := by
        rw [ClassFile.carryOutEach_eq hcount hfound] at hcarry
        refine exceptBind_eq_ok.mpr ⟨_, plan_of_nameSites hfound, ?_⟩
        cases hplain : c.carryOut (RenamingPlan.make m c.pool found) with
        | error e =>
          rw [hplain] at hcarry
          cases hcarry
        | ok c'' =>
          rw [hplain] at hcarry
          exact congrArg Except.ok (Except.ok.inj hcarry)
      obtain ⟨-, pool, changes, -, hby⟩ := ClassFile.renamedBy_of_renamed hcount hrenamed
      refine .inr ⟨hsome, c', pool, changes, c.ownTexts m found, hby, hrewritten,
        fun w => ClassFile.mem_ownTexts_iff hfound, ?_⟩
      rw [← hsource]
      exact Except.ok.inj (hsub.symm.trans hwritten)

/-- A change is reported of other bytes only, and where a text is rewritten. -/
theorem of_changed (hparse : parse source = .ok c) (hsub : c.substitute m = .ok s)
    (hchanged : s.changed = true) : s.bytes ≠ source ∧ ∃ w, c.Rewrites m w := by
  obtain ⟨-, rfl⟩ | ⟨hsome, c', -, -, -, -, -, -, rfl⟩ := substitute_cases hparse hsub
  · cases hchanged
  · exact ⟨bne_iff_ne.mp hchanged, hsome⟩

theorem of_unchanged (hparse : parse source = .ok c) (hsub : c.substitute m = .ok s)
    (hchanged : s.changed = false) : s.bytes = source := by
  obtain ⟨-, rfl⟩ | ⟨-, c', -, -, -, -, -, -, rfl⟩ := substitute_cases hparse hsub
  · rfl
  · exact bne_eq_false_iff_eq.mp hchanged

/-- **A rewritten text is reported**, if a text is appended or if each text that is rewritten where
it stands fits its length field. -/
theorem changed_iff_rewrites (hparse : parse source = .ok c) (hsub : c.substitute m = .ok s)
    (hroom : (∃ w, c.NeedsSlot m w) ∨
      ∀ i w, c.AgreesOn m i w → (encode w).length ≤ 65535) :
    s.changed = true ↔ ∃ w, c.Rewrites m w := by
  constructor
  · exact fun hchanged => (of_changed hparse hsub hchanged).2
  · intro hrewrites
    obtain ⟨hnone, -⟩ | ⟨-, c', pool, changes, more, hby, hwritten, hmore, rfl⟩ :=
      substitute_cases hparse hsub
    · obtain ⟨w, hw⟩ := hrewrites
      exact absurd hw (hnone w)
    · have hne := hwritten.toBytes_ne hby (wellFormed_of_parse hparse) hmore hrewrites hroom
      rw [toBytes_of_parse hparse] at hne
      exact bne_iff_ne.mpr hne

end LoadedClass

/-! ## A rewriting that is not reported -/

/-- The letter `a`, so many times. -/
def letters (n : Nat) : List Char := List.replicate n 'a'

theorem encode_letters (n : Nat) : encode (String.ofList (letters n)) = List.replicate n 97 := by
  rw [encode, String.toList_ofList, letters, units, List.flatMap_assoc]
  induction n with
  | zero => rfl
  | succ n ih => rw [List.replicate_succ, List.flatMap_cons, ih]; rfl

/-- A class with three class entries, of which the first is its own. -/
def namingSample (own second third : String) : ClassFile where
  minorVersion := 0
  majorVersion := 52
  pool := ⟨#[.unusable, .utf8 (encode own), .utf8 (encode second), .utf8 (encode third),
    .classInfo 1, .classInfo 2, .classInfo 3]⟩
  access := 33
  thisClass := 4
  superClass := 0
  interfaces := []
  fields := #[]
  methods := #[]
  attributes := #[]

theorem toBytes_namingSample (own second third : String) :
    (namingSample own second third).toBytes =
      [0xCA, 0xFE, 0xBA, 0xBE, 0, 0, 0, 52, 0, 7] ++ ((Constant.utf8 (encode own)).toBytes ++
        ((Constant.utf8 (encode second)).toBytes ++ ((Constant.utf8 (encode third)).toBytes ++
          [7, 0, 1, 7, 0, 2, 7, 0, 3, 0, 33, 0, 4, 0, 0, 0, 0, 0, 0, 0, 0, 0, 0]))) := by
  simp only [ClassFile.toBytes, ConstantPool.toBytes, namingSample, ConstantPool.count,
    List.size_toArray, List.drop_succ_cons, List.drop_zero, List.flatMap_cons, List.flatMap_nil]
  simp only [List.length_cons, List.length_nil, List.append_assoc, List.cons_append]
  rfl

theorem wellFormed_namingSample {own second third : String} (hown : (encode own).length ≤ 65535)
    (hsecond : (encode second).length ≤ 65535) (hthird : (encode third).length ≤ 65535) :
    (namingSample own second third).WellFormed where
  version := rfl
  pool := by
    constructor
    · exact ⟨_, rfl, .narrow (Nat.lt_succ_of_le hown) rfl (.narrow (Nat.lt_succ_of_le hsecond) rfl
        (.narrow (Nat.lt_succ_of_le hthird) rfl (.narrow trivial rfl (.narrow trivial rfl
          (.narrow trivial rfl .nil)))))⟩
    · simp [namingSample, ConstantPool.count, ConstantPool.maxCount]
  interfaces := by simp [namingSample]
  fields := by simp [namingSample]
  methods := by simp [namingSample]
  attributes := by simp [namingSample]

theorem resolveHeader_namingSample {own : String} (h : isPathName own = true)
    (second third : String) : (namingSample own second third).resolveHeader = .ok own := by
  refine ClassFile.resolveHeader_eq_ok.mpr ⟨?_, h, nofun, nofun⟩
  exact ConstantPool.className_eq_ok.mpr ⟨1, rfl, ConstantPool.text?_encode rfl⟩

/-- The name sites of the sample: each text has one. -/
def namingSites : NameSites :=
  ⟨[⟨.slot 4, 1, .className⟩, ⟨.slot 5, 2, .className⟩, ⟨.slot 6, 3, .className⟩], []⟩

theorem nameSites_namingSample (own second third : String) :
    (namingSample own second third).nameSites = .ok namingSites := rfl

/-- A sample that is renamed throughout is renamed in place. -/
theorem make_namingSample {m : NameMapper} {own second third own' second' third' : String}
    (hown : NameRole.className.remap m own = some own')
    (hsecond : NameRole.className.remap m second = some second')
    (hthird : NameRole.className.remap m third = some third') :
    RenamingPlan.make m (namingSample own second third).pool namingSites =
      ⟨[(1, own'), (2, second'), (3, third')], []⟩ := by
  have hgroups : namingSites.byText.toList = [(1, [⟨.slot 4, 1, .className⟩]),
      (2, [⟨.slot 5, 2, .className⟩]), (3, [⟨.slot 6, 3, .className⟩])] := by
    decide +kernel
  have hpart (index : UInt16) {location : Location} {v w : String}
      (hbytes : (namingSample own second third).pool.utf8Bytes index = .ok (encode v))
      (hremap : NameRole.className.remap m v = some w) :
      RenamingPlan.part m (namingSample own second third).pool namingSites
        (index, [⟨location, index, .className⟩]) = ⟨[(index, w)], []⟩ := by
    simp only [RenamingPlan.part, ConstantPool.text?_encode hbytes, List.map_cons, List.map_nil,
      hremap]
    rfl
  rw [RenamingPlan.make_eq, hgroups]
  simp only [List.flatMap_cons, List.flatMap_nil, hpart 1 rfl hown, hpart 2 rfl hsecond,
    hpart 3 rfl hthird]
  rfl

theorem carryOut_namingSample (own second third own' second' third' : String) :
    (namingSample own second third).carryOut ⟨[(1, own'), (2, second'), (3, third')], []⟩ =
      .ok (namingSample own' second' third') := rfl

/-! ### Names that are told by their length fields -/

/-- A name of letters. -/
def plainName (n : Nat) : String := String.ofList (letters n)

/-- A name that ends in two length fields with as many letters behind each. -/
def fieldsName (q r s : Nat) : String :=
  String.ofList (letters q ++ ['\x01', '\x01', '@'] ++ letters r ++ ['\x01', '\x01', 'A'] ++
    letters s)

/-- A name that holds the tags and length fields in front of a plain name and of one with fields. -/
def swallowingName (p q : Nat) : String :=
  String.ofList (['A', '\x01', '\xc0'] ++ letters p ++ ['\x01', '?', '\x01'] ++ letters q)

/-- Renames the three classes of a sample. -/
def swallowingMapper (p q r s : Nat) : NameMapper := fun name =>
  if name = "A" then some (swallowingName p q)
  else if name = plainName p then some (plainName r)
  else if name = fieldsName q r s then some (plainName s)
  else none

theorem length_encode_plainName (n : Nat) : (encode (plainName n)).length = n := by
  rw [plainName, encode_letters, List.length_replicate]

theorem encode_swallowingName (p q : Nat) : encode (swallowingName p q) =
    [65, 1, 0xC3, 0x80] ++ List.replicate p 97 ++ [1, 0x3F, 1] ++ List.replicate q 97 := by
  rw [swallowingName, encode_append, encode_append, encode_append, encode_letters, encode_letters]
  rfl

theorem encode_fieldsName (q r s : Nat) : encode (fieldsName q r s) =
    List.replicate q 97 ++ [1, 1, 0x40] ++ List.replicate r 97 ++ [1, 1, 0x41] ++
      List.replicate s 97 := by
  rw [fieldsName, encode_append, encode_append, encode_append, encode_append, encode_letters,
    encode_letters, encode_letters]
  rfl

theorem length_encode_swallowingName (p q : Nat) :
    (encode (swallowingName p q)).length = p + q + 7 := by
  rw [encode_swallowingName]
  simp
  omega

theorem length_encode_fieldsName (q r s : Nat) :
    (encode (fieldsName q r s)).length = q + r + s + 6 := by
  rw [encode_fieldsName]
  simp
  omega

/-- The name that does not fit goes on to the texts behind it. -/
theorem toBytes_swallowed {p q r s : Nat} (hp : p = 50048) (hq : q = 15482) (hr : r = 320)
    (hs : s = 321) : (namingSample (swallowingName p q) (plainName r) (plainName s)).toBytes =
      (namingSample "A" (plainName p) (fieldsName q r s)).toBytes := by
  have hlong : UInt16.ofNat (p + q + 7) = 1 := by rw [hp, hq]; rfl
  have hfields : UInt16.ofNat (q + r + s + 6) = 0x3F01 := by rw [hq, hr, hs]; rfl
  have hplain : UInt16.ofNat p = 0xC380 := by rw [hp]; rfl
  have hr' : UInt16.ofNat r = 0x140 := by rw [hr]; rfl
  have hs' : UInt16.ofNat s = 0x141 := by rw [hs]; rfl
  have hown : encode "A" = [65] := rfl
  rw [toBytes_namingSample, toBytes_namingSample]
  simp only [Constant.toBytes, length_encode_swallowingName, length_encode_fieldsName, plainName,
    encode_letters, List.length_replicate, hlong, hfields, hplain, hr', hs', hown]
  rw [encode_swallowingName, encode_fieldsName]
  simp only [show bytes16 1 = [0, 1] from rfl, show bytes16 0x3F01 = [0x3F, 1] from rfl,
    show bytes16 0xC380 = [0xC3, 0x80] from rfl, show bytes16 0x140 = [1, 0x40] from rfl,
    show bytes16 0x141 = [1, 0x41] from rfl, List.append_assoc, List.cons_append, List.nil_append,
    List.length_singleton]
  rfl

theorem isArray_letters {n : Nat} (h : n ≠ 0) (rest : List Char) :
    NameRole.isArray (String.ofList (letters n ++ rest)) = false := by
  obtain ⟨k, rfl⟩ := Nat.exists_eq_succ_of_ne_zero h
  simp [NameRole.isArray, letters, List.replicate_succ]

theorem remap_swallowing {p q r s : Nat} (hp : p = 50048) (hq : q = 15482) (hr : r = 320)
    (hs : s = 321) :
    NameRole.className.remap (swallowingMapper p q r s) "A" = some (swallowingName p q) ∧
      NameRole.className.remap (swallowingMapper p q r s) (plainName p) = some (plainName r) ∧
      NameRole.className.remap (swallowingMapper p q r s) (fieldsName q r s) =
        some (plainName s) := by
  have hown : (encode "A").length = 1 := rfl
  -- the names are told apart by their lengths
  have hne {v w : String} (h : (encode w).length ≠ (encode v).length) : w ≠ v :=
    fun heq => h (congrArg (fun name => (encode name).length) heq)
  have hremap {v w : String} (harray : NameRole.isArray v = false)
      (hname : swallowingMapper p q r s v = some w) (h : w ≠ v) :
      NameRole.className.remap (swallowingMapper p q r s) v = some w := by
    simp [NameRole.remap, harray, hname, Option.filter, h]
  refine ⟨hremap rfl (if_pos rfl) (hne ?_), hremap ?_ ?_ (hne ?_), hremap ?_ ?_ (hne ?_)⟩
  · rw [length_encode_swallowingName, hown]
    omega
  · rw [plainName, ← List.append_nil (letters p)]
    exact isArray_letters (by omega) []
  · rw [swallowingMapper, if_neg (hne (by rw [length_encode_plainName, hown]; omega)), if_pos rfl]
  · rw [length_encode_plainName, length_encode_plainName]
    omega
  · rw [fieldsName, List.append_assoc, List.append_assoc, List.append_assoc]
    exact isArray_letters (by omega) _
  · rw [swallowingMapper, if_neg (hne (by rw [length_encode_fieldsName, hown]; omega)),
      if_neg (hne (by rw [length_encode_fieldsName, length_encode_plainName]; omega)), if_pos rfl]
  · rw [length_encode_plainName, length_encode_fieldsName]
    omega

/-- **A rewritten text need not be reported.** The three texts of the sample are rewritten where
they stand, and the bytes are those that were there. -/
theorem LoadedClass.substitute_hides_rewriting :
    ∃ c, parse (namingSample "A" (plainName 50048) (fieldsName 15482 320 321)).toBytes = .ok c ∧
      c.Rewrites (swallowingMapper 50048 15482 320 321) (swallowingName 50048 15482) ∧
      c.substitute (swallowingMapper 50048 15482 320 321) = .ok ⟨c.source, false⟩ := by
  -- the lengths stay variables, so that no name is written out
  obtain ⟨p, hp⟩ : ∃ p, p = 50048 := ⟨_, rfl⟩
  obtain ⟨q, hq⟩ : ∃ q, q = 15482 := ⟨_, rfl⟩
  obtain ⟨r, hr⟩ : ∃ r, r = 320 := ⟨_, rfl⟩
  obtain ⟨s, hs⟩ : ∃ s, s = 321 := ⟨_, rfl⟩
  rw [← hp, ← hq, ← hr, ← hs]
  obtain ⟨hown, hsecond, hthird⟩ := remap_swallowing hp hq hr hs
  have hformed : (namingSample "A" (plainName p) (fieldsName q r s)).WellFormed := by
    refine wellFormed_namingSample (by decide) ?_ ?_
    · rw [length_encode_plainName]
      omega
    · rw [length_encode_fieldsName]
      omega
  refine ⟨_, parse_toBytes hformed (resolveHeader_namingSample rfl _ _), ?_, ?_⟩
  · exact ⟨namingSites, nameSites_namingSample _ _ _, ⟨.slot 4, 1, .className⟩,
      List.mem_cons_self, "A", ConstantPool.text?_encode rfl, hown⟩
  · have hmake := make_namingSample hown hsecond hthird
    refine Eq.trans (substitute_of_plan (nameSites_namingSample _ _ _) hmake rfl
      (carryOut_namingSample _ _ _ _ _ _)) ?_
    rw [toBytes_swallowed hp hq hr hs, bne_self_eq_false]

end JvmRelocation
