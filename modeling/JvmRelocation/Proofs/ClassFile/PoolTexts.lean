import JvmRelocation.Proofs.ClassFile.Codec
import JvmRelocation.Proofs.ClassFile.Reindexing
import JvmRelocation.Proofs.Text.ModifiedUtf8

/-!
# The texts of a pool after a renaming

Replacing texts where they stand, appending new ones and exchanging operands leave every slot where
it is and keep its kind. So the pool stays one that the format can store, and what the text with an
index is afterwards can be told slot by slot.
-/

namespace JvmRelocation

open ModifiedUtf8

namespace ConstantPool

theorem get?_eq (pool : ConstantPool) (index : UInt16) :
    pool.get? index = pool.slots.toList[index.toNat]? := by
  rw [get?, Array.getElem?_toList]

theorem utf8Bytes_eq_ok {pool : ConstantPool} {index : UInt16} {bytes : Bytes} :
    pool.utf8Bytes index = .ok bytes ↔ pool.get? index = some (.utf8 bytes) := by
  rw [utf8Bytes]
  split
  case h_1 found h => simp [h]
  case h_2 h =>
    simp only [reduceCtorEq, false_iff]
    exact h bytes

/-- Slots that agree on being a text, and on the text, have the same text. -/
theorem utf8Bytes_congr {pool pool' : ConstantPool} {index : UInt16}
    (h : ∀ bytes, pool.get? index = some (.utf8 bytes) ↔ pool'.get? index = some (.utf8 bytes)) :
    pool.utf8Bytes index = pool'.utf8Bytes index := by
  cases hbytes : pool.utf8Bytes index with
  | ok bytes => exact (utf8Bytes_eq_ok.mpr ((h bytes).mp (utf8Bytes_eq_ok.mp hbytes))).symm
  | error e =>
    cases hbytes' : pool'.utf8Bytes index with
    | ok bytes =>
      rw [utf8Bytes_eq_ok.mpr ((h bytes).mpr (utf8Bytes_eq_ok.mp hbytes'))] at hbytes
      cases hbytes
    | error e' =>
      simp only [utf8Bytes] at hbytes hbytes'
      split at hbytes <;> split at hbytes' <;> simp_all

theorem text?_eq {pool pool' : ConstantPool} {index index' : UInt16}
    (h : pool.utf8Bytes index = pool'.utf8Bytes index') : pool.text? index = pool'.text? index' := by
  simp only [text?, text, h]
  cases pool'.utf8Bytes index' with
  | error e => rfl
  | ok bytes =>
    dsimp only
    cases ModifiedUtf8.decode bytes with
    | none => rfl
    | some t => rfl

theorem text?_encode {pool : ConstantPool} {index : UInt16} {t : String}
    (h : pool.utf8Bytes index = .ok (encode t)) : pool.text? index = some t := by
  simp only [text?, text, h, decode_encode]
  rfl

/-- An index with a text is that of a text entry. -/
theorem utf8Bytes_of_text? {pool : ConstantPool} {index : UInt16} {t : String}
    (h : pool.text? index = some t) :
    ∃ bytes, pool.utf8Bytes index = .ok bytes ∧ ModifiedUtf8.decode bytes = some t := by
  simp only [text?, text] at h
  split at h
  case h_2 => simp [Except.toOption] at h
  case h_1 bytes hbytes =>
    split at h
    case h_2 => simp [Except.toOption] at h
    case h_1 s hs =>
      obtain rfl : s = t := by simpa [Except.toOption] using h
      exact ⟨bytes, hbytes, hs⟩

theorem text_eq_ok {pool : ConstantPool} {index : UInt16} {t : String} :
    pool.text index = .ok t ↔ pool.text? index = some t := by
  rw [text?]
  cases pool.text index <;> simp [Except.toOption]

theorem className_eq_ok {pool : ConstantPool} {index : UInt16} {t : String} :
    pool.className index = .ok t ↔
      ∃ name, pool.get? index = some (.classInfo name) ∧ pool.text? name = some t := by
  rw [className]
  split
  case h_1 name h => simp [h, text_eq_ok]
  case h_2 h =>
    simp only [reduceCtorEq, false_iff]
    rintro ⟨name, hname, -⟩
    exact h name hname

/-! ## Exchanged operands -/

theorem get?_withIndices (pool : ConstantPool) (changes : UInt16 → Option UInt16) (index : UInt16) :
    (pool.withIndices changes).get? index =
      (pool.get? index).map (·.withIndex (changes index)) := by
  simp [get?, withIndices]

theorem utf8Bytes_withIndices (pool : ConstantPool) (changes : UInt16 → Option UInt16)
    (index : UInt16) : (pool.withIndices changes).utf8Bytes index = pool.utf8Bytes index := by
  refine utf8Bytes_congr fun bytes => ?_
  rw [get?_withIndices]
  cases pool.get? index with
  | none => simp
  | some k =>
    cases changes index with
    | none => rfl
    | some new => cases k <;> simp [Constant.withIndex, Constant.withText]

theorem count_withIndices (pool : ConstantPool) (changes : UInt16 → Option UInt16) :
    (pool.withIndices changes).count = pool.count := by
  simp [count, withIndices]

/-! ## Replaced texts -/

theorem count_replaceTexts (pool : ConstantPool) (replaced : List (UInt16 × String)) :
    (pool.replaceTexts replaced).count = pool.count := by
  induction replaced generalizing pool with
  | nil => rfl
  | cons r replaced ih =>
    rw [replaceTexts, List.foldl_cons, ← replaceTexts, ih]
    simp [count, set]

theorem get?_set (pool : ConstantPool) (index place : UInt16) (k : Constant) :
    (pool.set place k).get? index =
      if index = place ∧ place.toNat < pool.count then some k else pool.get? index := by
  simp only [get?, set, Array.getElem?_setIfInBounds, count]
  by_cases h : index = place
  · subst h
    by_cases hbound : index.toNat < pool.slots.size
    · simp [hbound]
    · simp [hbound]
  · have hne : place.toNat ≠ index.toNat := fun heq => h (UInt16.toNat_inj.mp heq).symm
    simp [h, hne]

theorem get?_replaceTexts_of_not_mem {pool : ConstantPool} {replaced : List (UInt16 × String)}
    {index : UInt16} (h : ∀ t, (index, t) ∉ replaced) :
    (pool.replaceTexts replaced).get? index = pool.get? index := by
  induction replaced generalizing pool with
  | nil => rfl
  | cons r replaced ih =>
    obtain ⟨place, t⟩ := r
    have hne : index ≠ place := by
      rintro rfl
      exact h t List.mem_cons_self
    rw [replaceTexts, List.foldl_cons, ← replaceTexts,
      ih fun t ht => h t (List.mem_cons_of_mem _ ht), get?_set, if_neg fun heq => hne heq.1]

theorem get?_replaceTexts_of_mem {pool : ConstantPool} {replaced : List (UInt16 × String)}
    {index : UInt16} {t : String} (h : (index, t) ∈ replaced)
    (hunique : ∀ t', (index, t') ∈ replaced → t' = t) (hbound : index.toNat < pool.count) :
    (pool.replaceTexts replaced).get? index = some (.utf8 (encode t)) := by
  induction replaced generalizing pool with
  | nil => cases h
  | cons r replaced ih =>
    obtain ⟨place, u⟩ := r
    rw [replaceTexts, List.foldl_cons, ← replaceTexts]
    have hunique' (t') (ht' : (index, t') ∈ replaced) : t' = t :=
      hunique t' (List.mem_cons_of_mem _ ht')
    by_cases hmem : ∃ t', (index, t') ∈ replaced
    · obtain ⟨t', ht'⟩ := hmem
      obtain rfl := hunique' t' ht'
      exact ih ht' hunique' (by simpa [count, set] using hbound)
    · rw [get?_replaceTexts_of_not_mem fun t' ht' => hmem ⟨t', ht'⟩]
      obtain ⟨rfl, rfl⟩ : index = place ∧ t = u := by
        rcases List.mem_cons.mp h with heq | hmem'
        · simpa using heq
        · exact absurd ⟨t, hmem'⟩ hmem
      rw [get?_set, if_pos ⟨rfl, hbound⟩]

/-! ## Appended texts -/

/-- Every text that is known has its index. -/
def Knows (pool : ConstantPool) (known : Appended) : Prop :=
  ∀ t index, known.get? t = some index → pool.get? index = some (.utf8 (encode t))

theorem push_eq_ok {pool pool' : ConstantPool} {bytes : Bytes} {index : UInt16}
    (h : pool.push bytes = .ok (index, pool')) :
    pool.count < maxCount ∧ index.toNat = pool.count ∧
      pool'.slots.toList = pool.slots.toList ++ [.utf8 bytes] := by
  rw [push] at h
  split at h
  case isTrue => cases h
  case isFalse hroom =>
    obtain ⟨rfl, rfl⟩ : UInt16.ofNat pool.count = index ∧ ⟨pool.slots.push (.utf8 bytes)⟩ = pool' := by
      simpa using h
    have hlt : pool.count < maxCount := by omega
    refine ⟨hlt, ?_, by simp⟩
    rw [UInt16.toNat_ofNat', Nat.mod_eq_of_lt]
    simp only [maxCount] at hlt
    omega

theorem count_of_push {pool pool' : ConstantPool} {bytes : Bytes} {index : UInt16}
    (h : pool.push bytes = .ok (index, pool')) : pool'.count = pool.count + 1 := by
  obtain ⟨-, -, hslots⟩ := push_eq_ok h
  rw [count, count, ← Array.length_toList, hslots]
  simp

theorem get?_of_append {pool pool' : ConstantPool} {more : List Constant}
    (h : pool'.slots.toList = pool.slots.toList ++ more) {index : UInt16}
    (hindex : index.toNat < pool.count) : pool'.get? index = pool.get? index := by
  rw [get?_eq, get?_eq, h, List.getElem?_append_left (by simpa [count] using hindex)]

theorem lt_count_of_get? {pool : ConstantPool} {index : UInt16} {k : Constant}
    (h : pool.get? index = some k) : index.toNat < pool.count := by
  obtain ⟨hlt, -⟩ := Array.getElem?_eq_some_iff.mp h
  exact hlt

/-- A pushed text has the index of its slot, and all others keep theirs. -/
theorem Knows.push {pool mid : ConstantPool} {known : Appended} {t : String} {index : UInt16}
    (h : pool.Knows known) (hpush : pool.push (encode t) = .ok (index, mid)) :
    mid.Knows (known.insert t index) := by
  obtain ⟨-, hindex, hslots⟩ := push_eq_ok hpush
  intro u j hj
  rw [Std.TreeMap.get?_eq_getElem?, Std.TreeMap.getElem?_insert] at hj
  split at hj
  case isTrue heq =>
    obtain rfl : t = u := Std.LawfulEqOrd.eq_of_compare heq
    obtain rfl : index = j := by simpa using hj
    rw [get?_eq, hslots, hindex]
    simp [count]
  case isFalse =>
    have hold := h u j hj
    rw [get?_of_append hslots (lt_count_of_get? hold), hold]

theorem appendTexts_eq_ok {pool pool' : ConstantPool} {known known' : Appended} {texts : List String}
    (h : pool.appendTexts known texts = .ok (pool', known')) (hknows : pool.Knows known)
    (hcount : pool.count ≤ maxCount) :
    (∃ more : List String, (∀ t ∈ more, t ∈ texts) ∧
        pool'.slots.toList = pool.slots.toList ++ more.map fun t => .utf8 (encode t)) ∧
      pool'.count ≤ maxCount ∧ pool'.Knows known' ∧
      (∀ t, known.contains t = true → known'.contains t = true) ∧
      ∀ t ∈ texts, known'.contains t = true := by
  induction texts generalizing pool known with
  | nil =>
    obtain ⟨rfl, rfl⟩ : pool = pool' ∧ known = known' := by simpa [appendTexts] using h
    exact ⟨⟨[], by simp⟩, hcount, hknows, fun _ ht => ht, by simp⟩
  | cons t texts ih =>
    rw [appendTexts] at h
    split at h
    -- a text that is known already is not appended again
    case isTrue ht =>
      obtain ⟨⟨more, hmore, hslots⟩, hcount', hknows', hkept, hall⟩ := ih h hknows hcount
      exact ⟨⟨more, fun u hu => List.mem_cons_of_mem t (hmore u hu), hslots⟩, hcount', hknows',
        hkept, List.forall_mem_cons.mpr ⟨hkept t ht, hall⟩⟩
    case isFalse ht =>
      split at h
      case h_2 => cases h
      case h_1 index mid hpush =>
        obtain ⟨hroom, -, hslots⟩ := push_eq_ok hpush
        have hmid := count_of_push hpush
        obtain ⟨⟨more, hmore, hslots'⟩, hcount', hknows', hkept, hall⟩ :=
          ih h (hknows.push hpush) (by omega)
        have hkept' (u) (hu : known.contains u = true) : known'.contains u = true := by
          refine hkept u ?_
          rw [Std.TreeMap.contains_insert, hu, Bool.or_true]
        refine ⟨⟨t :: more, ?_, ?_⟩, hcount', hknows', hkept', ?_⟩
        · intro u hu
          rcases List.mem_cons.mp hu with rfl | hu
          · exact List.mem_cons_self
          · exact List.mem_cons_of_mem t (hmore u hu)
        · rw [hslots', hslots, List.append_assoc]
          rfl
        · refine List.forall_mem_cons.mpr ⟨hkept t ?_, hall⟩
          rw [Std.TreeMap.contains_insert_self]

/-! ## Pools that can be stored -/

/-- Constants that take the same room in a pool. -/
def SameShape (k k' : Constant) : Prop :=
  (k = .unusable ↔ k' = .unusable) ∧ k.isWide = k'.isWide ∧ (k.Storable → k'.Storable)

theorem SameShape.withIndex {k k' : Constant} (h : SameShape k k') (value : Option UInt16) :
    SameShape k (k'.withIndex value) := by
  cases value with
  | none => exact h
  | some index =>
    cases k' <;> simpa [SameShape, Constant.withIndex, Constant.withText, Constant.isWide,
      Constant.Storable] using h

theorem Filled.of_shape {list list' : List Constant} (h : Filled list)
    (hshape : List.Forall₂ SameShape list list') : Filled list' := by
  induction h generalizing list' with
  | nil =>
    obtain rfl := List.forall₂_nil_left_iff.mp hshape
    exact .nil
  | narrow hk hwide _ ih =>
    obtain ⟨k', rest, ⟨-, hwide', hstore⟩, hrest, rfl⟩ := List.forall₂_cons_left_iff.mp hshape
    exact .narrow (hstore hk) (hwide' ▸ hwide) (ih hrest)
  | wide hwide _ ih =>
    obtain ⟨k', rest, ⟨-, hwide', -⟩, hrest, rfl⟩ := List.forall₂_cons_left_iff.mp hshape
    obtain ⟨empty, rest', ⟨hempty, -⟩, hrest', rfl⟩ := List.forall₂_cons_left_iff.mp hrest
    obtain rfl := hempty.mp rfl
    exact .wide (hwide' ▸ hwide) (ih hrest')

theorem Filled.append_texts {list : List Constant} (h : Filled list) (more : List Bytes)
    (hmore : ∀ bytes ∈ more, bytes.length < 65536) : Filled (list ++ more.map .utf8) := by
  induction h with
  | nil =>
    induction more with
    | nil => exact .nil
    | cons bytes more ih =>
      obtain ⟨hbytes, hrest⟩ := List.forall_mem_cons.mp hmore
      exact .narrow hbytes rfl (ih hrest)
  | narrow hk hwide _ ih => exact .narrow hk hwide ih
  | wide hwide _ ih => exact .wide hwide ih

theorem WellFormed.of_shape {pool pool' : ConstantPool} (h : pool.WellFormed)
    (slots : List Constant) (more : List Bytes)
    (hshape : List.Forall₂ SameShape pool.slots.toList slots)
    (hmore : ∀ bytes ∈ more, bytes.length < 65536)
    (hslots : pool'.slots.toList = slots ++ more.map .utf8) (hcount : pool'.count ≤ maxCount) :
    pool'.WellFormed := by
  obtain ⟨⟨list, hlist, hfilled⟩, -⟩ := h
  rw [hlist] at hshape
  obtain ⟨empty, list', ⟨hempty, -⟩, hrest, rfl⟩ := List.forall₂_cons_left_iff.mp hshape
  obtain rfl := hempty.mp rfl
  exact ⟨⟨list' ++ more.map .utf8, by rw [hslots]; rfl,
    (hfilled.of_shape hrest).append_texts more hmore⟩, hcount⟩

end ConstantPool

end JvmRelocation
