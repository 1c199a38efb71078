import JvmRelocation.Proofs.Text.ModifiedUtf8

/-!
# Byte groups of modified UTF-8

The encoding told by its groups of bytes, without its reader. A text is read from some bytes exactly
if these are groups in a row whose units are the UTF-16 form of the text, and it is written as these
bytes exactly if each of the groups is the shortest for its unit.

The first byte of a group tells how long the group is. So bytes can be cut into groups in one way
only, and "the groups of these bytes" makes sense.
-/

namespace JvmRelocation.ModifiedUtf8

/-! ## Groups -/

/-- No group for the same unit has fewer bytes. -/
def Group.IsShortest (g : Group) : Prop :=
  ∀ other : Group, other.unit = g.unit → g.bytes.length ≤ other.bytes.length

namespace IsGroup

variable {bytes bytes' : Bytes} {u u' : UInt16}

/-- The first byte of a group tells its length. -/
theorem append_inj (h : IsGroup bytes u) (h' : IsGroup bytes' u') {rest rest' : Bytes}
    (heq : bytes ++ rest = bytes' ++ rest') : bytes = bytes' ∧ rest = rest' := by
  cases h <;> cases h' <;>
    simp only [List.cons_append, List.nil_append, List.cons.injEq] at heq ⊢
  case one.one => exact ⟨⟨heq.1, trivial⟩, heq.2⟩
  case two.two => exact ⟨⟨heq.1, heq.2.1, trivial⟩, heq.2.2⟩
  case three.three => exact ⟨⟨heq.1, heq.2.1, heq.2.2.1, trivial⟩, heq.2.2.2⟩
  -- groups of different lengths differ in their first byte
  all_goals
    obtain ⟨rfl, -⟩ := heq
    omega

/-- Groups of one length are told apart by their units. -/
theorem eq_of_length (h : IsGroup bytes u) (h' : IsGroup bytes' u)
    (hlength : bytes.length = bytes'.length) : bytes = bytes' := by
  cases h <;> cases h' <;> simp only [List.length_cons, List.length_nil] at hlength
  case one.one =>
    rw [List.cons.injEq, ← UInt8.toNat_inj]
    exact ⟨by omega, rfl⟩
  case two.two =>
    rw [List.cons.injEq, List.cons.injEq, ← UInt8.toNat_inj, ← UInt8.toNat_inj]
    exact ⟨by omega, by omega, rfl⟩
  case three.three =>
    rw [List.cons.injEq, List.cons.injEq, List.cons.injEq, ← UInt8.toNat_inj, ← UInt8.toNat_inj,
      ← UInt8.toNat_inj]
    exact ⟨by omega, by omega, by omega, rfl⟩
  all_goals omega

/-- No group is shorter than the one a text is written with. -/
theorem length_groupOf_le (h : IsGroup bytes u) : (groupOf u).length ≤ bytes.length := by
  rw [groupOf]
  cases h with
  | one hlow hhigh hu =>
    rw [if_pos (by omega)]
    exact Nat.le_refl _
  | two _ _ _ _ hu =>
    split
    · exact Nat.le_succ _
    · rw [if_pos (by omega)]
      exact Nat.le_refl _
  | three =>
    split
    · exact Nat.le_add_left _ _
    · split
      · exact Nat.le_succ _
      · exact Nat.le_refl _

/-- The bytes of a group are neither zero nor `F0` or above. -/
theorem byte_bounds (h : IsGroup bytes u) {b : UInt8} (hb : b ∈ bytes) :
    0 < b.toNat ∧ b.toNat < 0xF0 := by
  cases h with
  | one hlow hhigh =>
    obtain rfl := List.mem_singleton.mp hb
    omega
  | two =>
    rcases List.mem_cons.mp hb with rfl | hb
    · omega
    · obtain rfl := List.mem_singleton.mp hb
      omega
  | three =>
    rcases List.mem_cons.mp hb with rfl | hb
    · omega
    · rcases List.mem_cons.mp hb with rfl | hb
      · omega
      · obtain rfl := List.mem_singleton.mp hb
        omega

end IsGroup

/-- The shortest group of a unit is the one a text is written with. -/
theorem Group.isShortest_iff (g : Group) : g.IsShortest ↔ g.bytes = groupOf g.unit := by
  constructor
  · intro h
    have hle : g.bytes.length ≤ (groupOf g.unit).length :=
      h (.ofUnit g.unit) rfl
    exact g.isGroup.eq_of_length (isGroup_groupOf g.unit)
      (Nat.le_antisymm hle g.isGroup.length_groupOf_le)
  · intro h other hunit
    rw [h, ← hunit]
    exact other.isGroup.length_groupOf_le

/-! ## Groups in a row -/

/-- Two bytes that are read as a unit are a group. -/
theorem isGroup_of_two {a b : UInt8} {u : UInt16} (ha : a.toNat / 0x20 = 6)
    (h : unitOfTwo? a b = some u) : IsGroup [a, b] u := by
  unfold unitOfTwo? at h
  obtain ⟨y, hy, rfl⟩ := Option.map_eq_some_iff.mp h
  obtain ⟨hlow, hhigh, hbits⟩ := continuation?_eq_some.mp hy
  have hvalue : (UInt16.ofNat (a.toNat % 0x20 * 0x40 + y)).toNat = a.toNat % 0x20 * 0x40 + y :=
    toNat_ofNat_unit (by omega)
  exact .two (by omega) (by omega) hlow hhigh (by omega)

/-- Three bytes that are read as a unit are a group. -/
theorem isGroup_of_three {a b c : UInt8} {u : UInt16} (ha : a.toNat / 0x10 = 14)
    (h : unitOfThree? a b c = some u) : IsGroup [a, b, c] u := by
  unfold unitOfThree? at h
  split at h
  · next y z hy hz =>
    obtain ⟨hlow, hhigh, hbits⟩ := continuation?_eq_some.mp hy
    obtain ⟨hlow', hhigh', hbits'⟩ := continuation?_eq_some.mp hz
    obtain rfl := Option.some.inj h
    have hbits'' : a.toNat % 0x10 = a.toNat - 0xE0 := by omega
    have hvalue : (UInt16.ofNat (a.toNat % 0x10 * 0x1000 + y * 0x40 + z)).toNat =
        a.toNat % 0x10 * 0x1000 + y * 0x40 + z := toNat_ofNat_unit (by omega)
    exact .three (by omega) (by omega) hlow hhigh hlow' hhigh'
      (by rw [hvalue, hbits, hbits', hbits''])
  · cases h

/-- Bytes that are read as units are groups in a row. -/
theorem exists_groups {bytes : Bytes} {done us : List UInt16} (h : unitsFrom done bytes = some us) :
    ∃ groups : List Group,
      groups.flatMap Group.bytes = bytes ∧ us = done.reverse ++ groups.map Group.unit := by
  -- a branch that reads on has found the group in front of those that the rest consists of
  have hcons {done : List UInt16} {g rest : Bytes} {u : UInt16} (hg : IsGroup g u)
      (hrest : ∃ groups : List Group, groups.flatMap Group.bytes = rest ∧
        us = (u :: done).reverse ++ groups.map Group.unit) :
      ∃ groups : List Group, groups.flatMap Group.bytes = g ++ rest ∧
        us = done.reverse ++ groups.map Group.unit := by
    obtain ⟨groups, rfl, rfl⟩ := hrest
    exact ⟨⟨g, u, hg⟩ :: groups, rfl, by simp⟩
  fun_induction unitsFrom done bytes with
  | case1 done =>
    refine ⟨[], rfl, ?_⟩
    simpa using h.symm
  | case2 done a rest n hone ih =>
    have hvalue : (UInt16.ofNat n).toNat = a.toNat := toNat_ofNat_unit (by omega)
    exact hcons (.one hone.1 (by omega) hvalue) (ih h)
  | case3 done a n hone htwo b rest u hread ih => exact hcons (isGroup_of_two htwo hread) (ih h)
  | case6 done a n hone htwo hthree b c rest u hread ih =>
    exact hcons (isGroup_of_three hthree hread) (ih h)
  | _ => cases h

/-- Writing units gives back the groups that were read exactly if each of them is the one a text is
written with. -/
theorem flatMap_groupOf_eq_iff (groups : List Group) :
    (groups.map Group.unit).flatMap groupOf = groups.flatMap Group.bytes ↔
      ∀ g ∈ groups, g.IsShortest := by
  induction groups with
  | nil => simp
  | cons g groups ih =>
    rw [List.map_cons, List.flatMap_cons, List.flatMap_cons, List.forall_mem_cons, ← ih,
      g.isShortest_iff]
    constructor
    · intro h
      obtain ⟨hfirst, hrest⟩ := (isGroup_groupOf g.unit).append_inj g.isGroup h
      exact ⟨hfirst.symm, hrest⟩
    · rintro ⟨hfirst, hrest⟩
      rw [hfirst, hrest]

/-! ## Code units -/

/-- Code units among which no surrogate is without its partner. -/
inductive Paired : List UInt16 → Prop
  | nil : Paired []
  | plain {u : UInt16} {us : List UInt16} : u.toNat < 0xD800 ∨ 0xE000 ≤ u.toNat → Paired us →
      Paired (u :: us)
  | pair {u v : UInt16} {us : List UInt16} : 0xD800 ≤ u.toNat → u.toNat < 0xDC00 →
      0xDC00 ≤ v.toNat → v.toNat < 0xE000 → Paired us → Paired (u :: v :: us)

/-- The units of a character are one plain unit or a pair. -/
theorem Paired.append_char (c : Char) {us : List UInt16} (h : Paired us) :
    Paired (unitsOf c ++ us) := by
  have hc := toNat_bounds c
  rw [unitsOf]
  split
  case isTrue hsmall =>
    have hunit : (UInt16.ofNat c.toNat).toNat = c.toNat := toNat_ofNat_unit hsmall
    exact .plain (by omega) h
  case isFalse hlarge =>
    have hhigh : (UInt16.ofNat (0xD800 + (c.toNat - 0x10000) / 0x400)).toNat =
        0xD800 + (c.toNat - 0x10000) / 0x400 := toNat_ofNat_unit (by omega)
    have hlow : (UInt16.ofNat (0xDC00 + (c.toNat - 0x10000) % 0x400)).toNat =
        0xDC00 + (c.toNat - 0x10000) % 0x400 := toNat_ofNat_unit (by omega)
    exact .pair (by omega) (by omega) (by omega) (by omega) h

theorem paired_units (s : List Char) : Paired (units s) := by
  induction s with
  | nil => exact .nil
  | cons c s ih => exact ih.append_char c

theorem toNat_ofNat_char {n : Nat} (h : n.isValidChar) : (Char.ofNat n).toNat = n := by
  rw [Char.ofNat, dif_pos h]
  rfl

/-- A plain unit is the unit of the character it is read as. -/
theorem unitsOf_plain {u : UInt16} (h : u.toNat < 0xD800 ∨ 0xE000 ≤ u.toNat) :
    unitsOf (Char.ofNat u.toNat) = [u] := by
  have hu := u.toNat_lt
  have hvalid : u.toNat.isValidChar := by
    unfold Nat.isValidChar
    omega
  rw [unitsOf, toNat_ofNat_char hvalid, if_pos hu, UInt16.ofNat_toNat]

/-- A pair of surrogates is the units of the character it is read as. -/
theorem unitsOf_pair {u v : UInt16} (hu : 0xD800 ≤ u.toNat) (hu' : u.toNat < 0xDC00)
    (hv : 0xDC00 ≤ v.toNat) (hv' : v.toNat < 0xE000) :
    unitsOf (Char.ofNat (0x10000 + (u.toNat - 0xD800) * 0x400 + (v.toNat - 0xDC00))) = [u, v] := by
  have hvalid : (0x10000 + (u.toNat - 0xD800) * 0x400 + (v.toNat - 0xDC00)).isValidChar := by
    unfold Nat.isValidChar
    omega
  have hhigh : 0xD800 + (0x10000 + (u.toNat - 0xD800) * 0x400 + (v.toNat - 0xDC00) - 0x10000) /
      0x400 = u.toNat := by omega
  have hlow : 0xDC00 + (0x10000 + (u.toNat - 0xD800) * 0x400 + (v.toNat - 0xDC00) - 0x10000) %
      0x400 = v.toNat := by omega
  rw [unitsOf, toNat_ofNat_char hvalid, if_neg (by omega), hhigh, hlow, UInt16.ofNat_toNat,
    UInt16.ofNat_toNat]

/-- Units that are read as characters are the UTF-16 form of these. -/
theorem exists_chars {us : List UInt16} {done s : List Char} (h : charsFrom done us = some s) :
    ∃ rest, s = done.reverse ++ rest ∧ us = units rest := by
  have hcons {done : List Char} {c : Char} {front us : List UInt16} (hc : unitsOf c = front)
      (hrest : ∃ rest, s = (c :: done).reverse ++ rest ∧ us = units rest) :
      ∃ rest, s = done.reverse ++ rest ∧ front ++ us = units rest := by
    obtain ⟨rest, rfl, rfl⟩ := hrest
    exact ⟨c :: rest, by simp, by rw [← hc]; rfl⟩
  fun_induction charsFrom done us with
  | case1 done => exact ⟨[], by simpa using h.symm, rfl⟩
  | case2 done u rest n hplain ih => exact hcons (unitsOf_plain hplain) (ih h)
  | case4 done u n hplain hhigh v rest m hlow ih =>
    exact hcons (unitsOf_pair (by omega) hhigh hlow.1 hlow.2) (ih h)
  | _ => cases h

/-- A text is read from code units exactly if they are its UTF-16 form. -/
theorem chars?_eq_some {us : List UInt16} {s : List Char} : chars? us = some s ↔ us = units s := by
  constructor
  · intro h
    obtain ⟨rest, rfl, rfl⟩ := exists_chars h
    rfl
  · rintro rfl
    exact charsFrom_units s []

/-- Paired units are the UTF-16 form of a text, and no others are. -/
theorem exists_units_iff {us : List UInt16} : (∃ s, units s = us) ↔ Paired us := by
  constructor
  · rintro ⟨s, rfl⟩
    exact paired_units s
  · intro h
    induction h with
    | nil => exact ⟨[], rfl⟩
    | plain hplain _ ih =>
      obtain ⟨s, rfl⟩ := ih
      exact ⟨_ :: s, congrArg (· ++ units s) (unitsOf_plain hplain)⟩
    | pair hu hu' hv hv' _ ih =>
      obtain ⟨s, rfl⟩ := ih
      exact ⟨_ :: s, congrArg (· ++ units s) (unitsOf_pair hu hu' hv hv')⟩

/-! ## Texts -/

/-- The text of bytes that are cut into groups. -/
theorem decode_flatMap (groups : List Group) {s : String} :
    decode (groups.flatMap Group.bytes) = some s ↔ groups.map Group.unit = units s.toList := by
  rw [decode_eq_decodeGroups, decodeGroups, unitsFrom_flatMap, List.reverse_nil, List.nil_append,
    Option.bind_some, Option.map_eq_some_iff, ← chars?_eq_some]
  constructor
  · rintro ⟨list, hlist, rfl⟩
    rw [hlist, String.toList_ofList]
  · intro h
    exact ⟨s.toList, h, String.ofList_toList⟩

/-- Bytes are read as a text exactly if they are groups whose units are its UTF-16 form. -/
theorem decode_eq_some {bytes : Bytes} {s : String} :
    decode bytes = some s ↔ ∃ groups : List Group,
      groups.flatMap Group.bytes = bytes ∧ groups.map Group.unit = units s.toList := by
  constructor
  · intro h
    have hgroups := h
    rw [decode_eq_decodeGroups, decodeGroups, Option.map_eq_some_iff] at hgroups
    obtain ⟨list, hlist, -⟩ := hgroups
    obtain ⟨us, hus, -⟩ := Option.bind_eq_some_iff.mp hlist
    obtain ⟨groups, rfl, -⟩ := exists_groups hus
    exact ⟨groups, rfl, (decode_flatMap groups).mp h⟩
  · rintro ⟨groups, rfl, hunits⟩
    exact (decode_flatMap groups).mpr hunits

/-- What a text is written as has neither zero bytes nor bytes from `F0` up. -/
theorem encode_bounds {s : String} {b : UInt8} (hb : b ∈ encode s) :
    0 < b.toNat ∧ b.toNat < 0xF0 := by
  obtain ⟨u, -, hu⟩ := List.mem_flatMap.mp hb
  exact (isGroup_groupOf u).byte_bounds hu

/-- **Modified UTF-8 is coded exactly.** A text survives its encoding, which holds no zero byte and
none from `F0` up. The shortcut for plain bytes reads what the groups say. Bytes are read as a text
exactly if they are groups whose units are its UTF-16 form, in which every surrogate has its partner.
The text is written as the bytes it was read from exactly if each group is the shortest for its unit,
which for the unit zero is `C0 80`. -/
theorem decode_encode_exact :
    (∀ s : String, decode (encode s) = some s ∧ ∀ b ∈ encode s, 0 < b.toNat ∧ b.toNat < 0xF0) ∧
    (∀ bytes, isPlain bytes = true →
      decodeGroups bytes = some (String.ofList (bytes.map fun b => Char.ofNat b.toNat))) ∧
    (∀ bytes, decode bytes = decodeGroups bytes) ∧
    (∀ (bytes : Bytes) (s : String), decode bytes = some s ↔
      ∃ groups : List Group,
        groups.flatMap Group.bytes = bytes ∧ groups.map Group.unit = units s.toList) ∧
    (∀ us : List UInt16, (∃ s, units s = us) ↔ Paired us) ∧
    (∀ (groups : List Group) (s : String), decode (groups.flatMap Group.bytes) = some s →
      (encode s = groups.flatMap Group.bytes ↔ ∀ g ∈ groups, g.IsShortest)) ∧
    (∀ g : Group, g.unit = 0 → (g.IsShortest ↔ g.bytes = [0xC0, 0x80])) := by
  refine ⟨fun s => ⟨decode_encode s, fun b => encode_bounds⟩, ?_, decode_eq_decodeGroups,
    fun bytes s => decode_eq_some, fun us => exists_units_iff, ?_, ?_⟩
  · intro bytes hplain
    rw [← decode_eq_decodeGroups, decode, if_pos hplain]
  · intro groups s h
    rw [encode, ← (decode_flatMap groups).mp h, flatMap_groupOf_eq_iff]
  · intro g hzero
    rw [g.isShortest_iff, hzero]
    rfl

/-- The letter A in two bytes where one is enough, and a pair of surrogates. -/
def overlongSample : List Group :=
  [⟨[0xC1, 0x81], 0x41, .two (by decide) (by decide) (by decide) (by decide) (by decide)⟩,
    ⟨[0xED, 0xA0, 0xBD], 0xD83D, .three (by decide) (by decide) (by decide) (by decide) (by decide)
      (by decide) (by decide)⟩,
    ⟨[0xED, 0xB8, 0x80], 0xDE00, .three (by decide) (by decide) (by decide) (by decide) (by decide)
      (by decide) (by decide)⟩]

/-- The unit zero in three bytes. -/
def overlongZero : Group :=
  ⟨[0xE0, 0x80, 0x80], 0, .three (by decide) (by decide) (by decide) (by decide) (by decide)
    (by decide) (by decide)⟩

theorem decode_encode_exact_overlong :
    (isPlain [0x41] = true ∧ decodeGroups [0x41] = some "A") ∧
    (decode (overlongSample.flatMap Group.bytes) = some "A😀" ∧
      encode "A😀" ≠ overlongSample.flatMap Group.bytes ∧ ¬ ∀ g ∈ overlongSample, g.IsShortest) ∧
    (overlongZero.unit = 0 ∧ ¬ overlongZero.IsShortest) := by
  obtain ⟨-, hplain, -, -, -, hshortest, hzero⟩ := decode_encode_exact
  have hread : decode (overlongSample.flatMap Group.bytes) = some "A😀" := by decide
  have hlonger : encode "A😀" ≠ overlongSample.flatMap Group.bytes := by decide
  refine ⟨⟨by decide, hplain [0x41] (by decide)⟩, ⟨hread, hlonger, ?_⟩, rfl, ?_⟩
  · intro h
    exact hlonger ((hshortest overlongSample "A😀" hread).mpr h)
  · intro h
    exact absurd ((hzero overlongZero rfl).mp h) (by decide)

end JvmRelocation.ModifiedUtf8
