import JvmRelocation.Text.ModifiedUtf8

/-!
# Encoded texts are read back

A group of bytes is read as its code unit and the units of a character as that character, each in
front of anything. So the bytes of a text are read as the text, along the groups as well as along
the shortcut for bytes that are all their own characters.
-/

namespace JvmRelocation.ModifiedUtf8

/-! ## Groups -/

theorem toNat_ofNat_byte {n : Nat} (h : n < 256) : (UInt8.ofNat n).toNat = n := by
  rw [UInt8.toNat_ofNat']
  omega

theorem toNat_ofNat_unit {n : Nat} (h : n < 65536) : (UInt16.ofNat n).toNat = n := by
  rw [UInt16.toNat_ofNat']
  omega

/-- The bytes of a group and the code unit they stand for. -/
inductive IsGroup : Bytes → UInt16 → Prop
  /-- `0xxxxxxx`, zero excepted. -/
  | one {a : UInt8} {u : UInt16} : 0x01 ≤ a.toNat → a.toNat ≤ 0x7F → u.toNat = a.toNat →
      IsGroup [a] u
  /-- `110xxxxx 10xxxxxx` -/
  | two {a b : UInt8} {u : UInt16} : 0xC0 ≤ a.toNat → a.toNat ≤ 0xDF →
      0x80 ≤ b.toNat → b.toNat ≤ 0xBF →
      u.toNat = (a.toNat - 0xC0) * 0x40 + (b.toNat - 0x80) → IsGroup [a, b] u
  /-- `1110xxxx 10xxxxxx 10xxxxxx` -/
  | three {a b c : UInt8} {u : UInt16} : 0xE0 ≤ a.toNat → a.toNat ≤ 0xEF →
      0x80 ≤ b.toNat → b.toNat ≤ 0xBF → 0x80 ≤ c.toNat → c.toNat ≤ 0xBF →
      u.toNat = (a.toNat - 0xE0) * 0x1000 + (b.toNat - 0x80) * 0x40 + (c.toNat - 0x80) →
      IsGroup [a, b, c] u

/-- What continuation bytes are. -/
theorem continuation?_eq_some {b : UInt8} {n : Nat} :
    continuation? b = some n ↔ 0x80 ≤ b.toNat ∧ b.toNat ≤ 0xBF ∧ n = b.toNat - 0x80 := by
  have hb := b.toNat_lt
  unfold continuation?
  split
  · rw [Option.some.injEq]
    omega
  · simp only [reduceCtorEq, false_iff]
    omega

/-- What a unit is written as is a group of it. -/
theorem isGroup_groupOf (u : UInt16) : IsGroup (groupOf u) u := by
  have hu := u.toNat_lt
  rw [groupOf]
  split
  case isTrue hone =>
    have hbyte : (UInt8.ofNat u.toNat).toNat = u.toNat := toNat_ofNat_byte (by omega)
    exact .one (by omega) (by omega) hbyte.symm
  case isFalse hone =>
    split
    case isTrue htwo =>
      have hfirst : (UInt8.ofNat (0xC0 + u.toNat / 0x40)).toNat = 0xC0 + u.toNat / 0x40 :=
        toNat_ofNat_byte (by omega)
      have hlast : (UInt8.ofNat (0x80 + u.toNat % 0x40)).toNat = 0x80 + u.toNat % 0x40 :=
        toNat_ofNat_byte (by omega)
      exact .two (by omega) (by omega) (by omega) (by omega) (by omega)
    case isFalse htwo =>
      have hfirst : (UInt8.ofNat (0xE0 + u.toNat / 0x1000)).toNat = 0xE0 + u.toNat / 0x1000 :=
        toNat_ofNat_byte (by omega)
      have hmiddle : (UInt8.ofNat (0x80 + u.toNat / 0x40 % 0x40)).toNat =
          0x80 + u.toNat / 0x40 % 0x40 := toNat_ofNat_byte (by omega)
      have hlast : (UInt8.ofNat (0x80 + u.toNat % 0x40)).toNat = 0x80 + u.toNat % 0x40 :=
        toNat_ofNat_byte (by omega)
      exact .three (by omega) (by omega) (by omega) (by omega) (by omega) (by omega) (by omega)

/-- A group is read as its unit, whatever stands behind it. -/
theorem IsGroup.unitsFrom {bytes : Bytes} {u : UInt16} (h : IsGroup bytes u) (done : List UInt16)
    (rest : Bytes) :
    ModifiedUtf8.unitsFrom done (bytes ++ rest) = ModifiedUtf8.unitsFrom (u :: done) rest := by
  have hunit : UInt16.ofNat u.toNat = u := UInt16.ofNat_toNat
  cases h with
  | @one a _ hlow hhigh hu =>
    rw [List.cons_append, List.nil_append, unitsFrom.eq_def]
    show (if _ then _ else _) = _
    rw [if_pos ⟨hlow, by omega⟩, ← hu, hunit]
  | @two a b _ _ _ hb hb' hu =>
    have hread : unitOfTwo? a b = some u := by
      have hvalue : a.toNat % 0x20 * 0x40 + (b.toNat - 0x80) = u.toNat := by omega
      rw [unitOfTwo?, continuation?_eq_some.mpr ⟨hb, hb', rfl⟩, Option.map_some, hvalue, hunit]
    rw [List.cons_append, List.cons_append, List.nil_append, unitsFrom.eq_def]
    show (if _ then _ else _) = _
    rw [if_neg (by omega), if_pos (by omega)]
    simp only [hread]
  | @three a b c _ _ _ hb hb' hc hc' hu =>
    have hread : unitOfThree? a b c = some u := by
      have hvalue : a.toNat % 0x10 * 0x1000 + (b.toNat - 0x80) * 0x40 + (c.toNat - 0x80) =
          u.toNat := by omega
      rw [unitOfThree?, continuation?_eq_some.mpr ⟨hb, hb', rfl⟩,
        continuation?_eq_some.mpr ⟨hc, hc', rfl⟩]
      simp only [hvalue, hunit]
    rw [List.cons_append, List.cons_append, List.cons_append, List.nil_append, unitsFrom.eq_def]
    show (if _ then _ else _) = _
    rw [if_neg (by omega), if_neg (by omega), if_pos (by omega)]
    simp only [hread]

/-- A group of bytes with its code unit. -/
structure Group where
  bytes : Bytes
  unit : UInt16
  isGroup : IsGroup bytes unit

/-- The group a text is written with. -/
def Group.ofUnit (u : UInt16) : Group :=
  ⟨groupOf u, u, isGroup_groupOf u⟩

/-- Reading groups in a row gives their units. -/
theorem unitsFrom_flatMap (groups : List Group) (done : List UInt16) :
    unitsFrom done (groups.flatMap Group.bytes) = some (done.reverse ++ groups.map Group.unit) := by
  induction groups generalizing done with
  | nil => simp [unitsFrom]
  | cons g groups ih =>
    rw [List.flatMap_cons, g.isGroup.unitsFrom, ih, List.reverse_cons, List.append_assoc]
    rfl

theorem unitsFrom_groups (us done : List UInt16) :
    unitsFrom done (us.flatMap groupOf) = some (done.reverse ++ us) := by
  have h := unitsFrom_flatMap (us.map Group.ofUnit) done
  have hunits : (us.map Group.ofUnit).map Group.unit = us := by
    rw [List.map_map]
    exact List.map_id us
  rwa [List.flatMap_map, hunits] at h

/-! ## Characters -/

theorem toNat_bounds (c : Char) :
    c.toNat < 0xD800 ∨ (0xDFFF < c.toNat ∧ c.toNat < 0x110000) := by
  have h := c.valid
  exact h

/-- The units of a character are read as that character. -/
theorem charsFrom_unitsOf (c : Char) (done : List Char) (rest : List UInt16) :
    charsFrom done (unitsOf c ++ rest) = charsFrom (c :: done) rest := by
  have hc := toNat_bounds c
  rw [unitsOf]
  split
  case isTrue hsmall =>
    have hunit : (UInt16.ofNat c.toNat).toNat = c.toNat := toNat_ofNat_unit hsmall
    rw [List.cons_append, List.nil_append, charsFrom.eq_def]
    simp only [hunit]
    rw [if_pos (by omega), Char.ofNat_toNat]
  case isFalse hlarge =>
    -- two surrogates, which are told apart from other units by their range
    have hhigh : (UInt16.ofNat (0xD800 + (c.toNat - 0x10000) / 0x400)).toNat =
        0xD800 + (c.toNat - 0x10000) / 0x400 := toNat_ofNat_unit (by omega)
    have hlow : (UInt16.ofNat (0xDC00 + (c.toNat - 0x10000) % 0x400)).toNat =
        0xDC00 + (c.toNat - 0x10000) % 0x400 := toNat_ofNat_unit (by omega)
    rw [List.cons_append, List.cons_append, List.nil_append, charsFrom.eq_def]
    simp only [hhigh, hlow]
    rw [if_neg (by omega), if_pos (by omega), if_pos (by omega)]
    have hwhole : 0x10000 + (0xD800 + (c.toNat - 0x10000) / 0x400 - 0xD800) * 0x400 +
        (0xDC00 + (c.toNat - 0x10000) % 0x400 - 0xDC00) = c.toNat := by omega
    rw [hwhole, Char.ofNat_toNat]

theorem charsFrom_units (s done : List Char) : charsFrom done (units s) = some (done.reverse ++ s) := by
  induction s generalizing done with
  | nil => simp [units, charsFrom]
  | cons c s ih =>
    have hcons : units (c :: s) = unitsOf c ++ units s := rfl
    rw [hcons, charsFrom_unitsOf, ih, List.reverse_cons, List.append_assoc]
    rfl

/-! ## Texts -/

theorem decodeGroups_encode (s : String) : decodeGroups (encode s) = some s := by
  rw [decodeGroups, encode, unitsFrom_groups, List.reverse_nil, List.nil_append, Option.bind_some,
    chars?, charsFrom_units, List.reverse_nil, List.nil_append, Option.map_some, String.ofList_toList]

/-- Bytes that are all their own characters are read as those. -/
theorem unitsFrom_plain (bytes : Bytes) (h : isPlain bytes = true) (done : List UInt16) :
    unitsFrom done bytes = some (done.reverse ++ bytes.map fun b => UInt16.ofNat b.toNat) := by
  induction bytes generalizing done with
  | nil => simp [unitsFrom]
  | cons b bytes ih =>
    simp only [isPlain, List.all_cons, Bool.and_eq_true, decide_eq_true_eq] at h
    rw [unitsFrom.eq_def]
    simp only
    rw [if_pos h.1, ih h.2, List.reverse_cons, List.append_assoc, List.map_cons]
    rfl

theorem charsFrom_plain (bytes : Bytes) (h : isPlain bytes = true) (done : List Char) :
    charsFrom done (bytes.map fun b => UInt16.ofNat b.toNat) =
      some (done.reverse ++ bytes.map fun b => Char.ofNat b.toNat) := by
  induction bytes generalizing done with
  | nil => simp [charsFrom]
  | cons b bytes ih =>
    simp only [isPlain, List.all_cons, Bool.and_eq_true, decide_eq_true_eq] at h
    have hunit : (UInt16.ofNat b.toNat).toNat = b.toNat := toNat_ofNat_unit (by omega)
    rw [List.map_cons, charsFrom.eq_def]
    simp only [hunit]
    rw [if_pos (by omega), ih h.2, List.reverse_cons, List.append_assoc, List.map_cons]
    rfl

/-- The shortcut reads what the groups say. -/
theorem decode_eq_decodeGroups (bytes : Bytes) : decode bytes = decodeGroups bytes := by
  rw [decode]
  split
  case isFalse => rfl
  case isTrue h =>
    rw [decodeGroups, unitsFrom_plain bytes h, Option.bind_some, chars?]
    rw [List.reverse_nil, List.nil_append, charsFrom_plain bytes h]
    rfl

/-- **A text survives its encoding.** The bytes of a text are read as the text. -/
theorem decode_encode (s : String) : decode (encode s) = some s := by
  rw [decode_eq_decodeGroups, decodeGroups_encode]

theorem encode_cons (c : Char) (list : List Char) :
    encode (String.ofList (c :: list)) =
      (unitsOf c).flatMap groupOf ++ encode (String.ofList list) := by
  simp only [encode, String.toList_ofList, units, List.flatMap_cons, List.flatMap_append]

theorem encode_append (a b : List Char) :
    encode (String.ofList (a ++ b)) = encode (String.ofList a) ++ encode (String.ofList b) := by
  simp only [encode, String.toList_ofList, units, List.flatMap_append]

/-- Characters that are their own bytes take one byte each. -/
theorem length_encode_plain {list : List Char}
    (h : list.all (fun c => 1 ≤ c.toNat ∧ c.toNat < 0x80) = true) :
    (encode (String.ofList list)).length = list.length := by
  induction list with
  | nil => rfl
  | cons c list ih =>
    rw [List.all_cons, Bool.and_eq_true, decide_eq_true_eq] at h
    obtain ⟨hc, hlist⟩ := h
    have hunit : (UInt16.ofNat c.toNat).toNat = c.toNat := toNat_ofNat_unit (by omega)
    have hgroup : (unitsOf c).flatMap groupOf = [UInt8.ofNat c.toNat] := by
      rw [unitsOf, if_pos (by omega), List.flatMap_singleton, groupOf, hunit, if_pos hc]
    rw [encode_cons, hgroup, List.length_append, ih hlist, List.length_singleton,
      List.length_cons, Nat.add_comm]

end JvmRelocation.ModifiedUtf8
