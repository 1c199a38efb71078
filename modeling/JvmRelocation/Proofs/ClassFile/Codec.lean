import JvmRelocation.ClassFile.Parser
import JvmRelocation.Proofs.Bytes.Codec
import JvmRelocation.Proofs.Failure

/-!
# The class file format round-trips

Which class structures the format can store, and that reading and writing are inverse on them: the
bytes of such a structure are read back as it, and whatever is read is such a structure and was
written as its bytes.
-/

namespace JvmRelocation

open Decoder BigEndian

/-! ## Lists and attributes -/

theorem ofNat_length_eq_iff {α : Type} (list : List α) (count : UInt16) :
    list.length < 65536 ∧ UInt16.ofNat list.length = count ↔ list.length = count.toNat := by
  have hcount := count.toNat_lt
  constructor
  · rintro ⟨hlength, rfl⟩
    simp only [UInt16.toNat_ofNat']
    omega
  · intro h
    rw [h]
    exact ⟨hcount, UInt16.ofNat_toNat⟩

theorem counted_codec {α : Type} {item : Decoder α} {write : α → Bytes} {Valid : α → Prop}
    (h : Codec item write Valid) :
    Codec (counted item) (countedBytes write)
      fun list => list.length < 65536 ∧ ∀ a ∈ list, Valid a := by
  have hitems (count : UInt16) : Codec (times count.toNat item) (fun list => list.flatMap write)
      fun list => (list.length < 65536 ∧ ∀ a ∈ list, Valid a) ∧
        UInt16.ofNat list.length = count :=
    (times_codec h count.toNat).congr (fun _ _ => rfl) fun list => by
      rw [← ofNat_length_eq_iff, and_right_comm]
  have hbind := Codec.bind (fun list : List α => UInt16.ofNat list.length) word16_codec
    fun count _ => hitems count
  exact hbind.congr (fun _ _ => rfl) fun list => by simp

/-- The body's length fits its field. -/
def Attribute.Storable (a : Attribute) : Prop :=
  a.body.size < 4294967296

theorem Attribute.codec : Codec Attribute.decode Attribute.toBytes Attribute.Storable := by
  have hbody (nameIndex : UInt16) (length : UInt32) :
      Codec (take length.toNat >>= fun body => pure ⟨nameIndex, body.toArray⟩)
        (fun a : Attribute => a.body.toList)
        fun a => (a.Storable ∧ a.nameIndex = nameIndex) ∧ UInt32.ofNat a.body.size = length :=
    (take_codec length.toNat).map (fun _ => by simp) fun a => by
      have hlength := length.toNat_lt
      constructor
      · rintro ⟨⟨hsize, rfl⟩, rfl⟩
        refine ⟨a.body.toList, ?_, by simp⟩
        simp only [UInt32.toNat_ofNat', Array.length_toList, Attribute.Storable] at hsize ⊢
        omega
      · rintro ⟨body, hsize, rfl⟩
        simp [Attribute.Storable, hsize, hlength]
  have hlength (nameIndex : UInt16) :=
    Codec.bind (fun a : Attribute => UInt32.ofNat a.body.size) word32_codec
      fun length _ => hbody nameIndex length
  have hrest (nameIndex : UInt16) : Codec _ _ fun a : Attribute =>
      a.Storable ∧ a.nameIndex = nameIndex :=
    (hlength nameIndex).congr (fun _ _ => rfl) fun a => by rw [true_and]
  have hall := Codec.bind (fun a : Attribute => a.nameIndex) word16_codec
    fun nameIndex _ => hrest nameIndex
  exact hall.congr (fun a _ => by simp [Attribute.toBytes]) fun a => by simp

/-- The number of attributes fits its field, and so does the length of each one's body. -/
def Member.Storable (m : Member) : Prop :=
  m.attributes.toList.length < 65536 ∧ ∀ a ∈ m.attributes.toList, a.Storable

theorem Member.codec : Codec Member.decode Member.toBytes Member.Storable := by
  have hattributes (access nameIndex descriptorIndex : UInt16) :
      Codec (counted Attribute.decode >>= fun list =>
          pure ⟨access, nameIndex, descriptorIndex, list.toArray⟩)
        (fun m : Member => countedBytes Attribute.toBytes m.attributes.toList)
        fun m => ((m.Storable ∧ m.access = access) ∧ m.nameIndex = nameIndex) ∧
          m.descriptorIndex = descriptorIndex :=
    (counted_codec Attribute.codec).map (fun _ => rfl) fun m => by
      constructor
      · rintro ⟨⟨⟨hm, rfl⟩, rfl⟩, rfl⟩
        exact ⟨m.attributes.toList, hm, rfl⟩
      · rintro ⟨list, hlist, rfl⟩
        exact ⟨⟨⟨hlist, rfl⟩, rfl⟩, rfl⟩
  have hdescriptor (access nameIndex : UInt16) :=
    Codec.bind (fun m : Member => m.descriptorIndex) word16_codec
      fun descriptorIndex _ => hattributes access nameIndex descriptorIndex
  have hname (access : UInt16) :=
    Codec.bind (fun m : Member => m.nameIndex) word16_codec fun nameIndex _ =>
      (hdescriptor access nameIndex).congr (fun _ _ => rfl)
        fun m => (true_and (_ ∧ m.nameIndex = nameIndex)).symm.to_iff
  have hall := Codec.bind (fun m : Member => m.access) word16_codec fun access _ =>
    (hname access).congr (fun _ _ => rfl) fun m => (true_and (_ ∧ m.access = access)).symm.to_iff
  exact hall.congr (fun m _ => by simp [Member.toBytes]) fun m => by simp

/-! ## Constants -/

namespace Constant

/-- An entry that can be stored: a text whose length fits its field, or an entry of another kind. -/
def Storable : Constant → Prop
  | utf8 bytes => bytes.length < 65536
  | unusable => False
  | _ => True

/-- The byte that tells the kind of an entry. -/
def tag : Constant → UInt8
  | utf8 _ => 1
  | integer _ => 3
  | float _ => 4
  | long _ => 5
  | double _ => 6
  | classInfo _ => 7
  | stringLiteral _ => 8
  | fieldRef .. => 9
  | methodRef .. => 10
  | interfaceMethodRef .. => 11
  | nameAndType .. => 12
  | methodHandle .. => 15
  | methodType _ => 16
  | dynamic .. => 17
  | invokeDynamic .. => 18
  | moduleInfo _ => 19
  | packageInfo _ => 20
  | unusable => 0

/-- The bytes of an entry behind its tag. -/
def payload (k : Constant) : Bytes :=
  k.toBytes.drop 1

theorem tag_cons_payload {k : Constant} (h : k.Storable) : [k.tag] ++ k.payload = k.toBytes := by
  cases k <;> first | rfl | exact h.elim

/-- An entry that consists of one operand behind its tag. -/
theorem operand_codec {α : Type} {d : Decoder α} {write : α → Bytes} {f : α → Constant} {t : UInt8}
    (hd : Codec d write fun _ => True) (hpayload : ∀ a, (f a).payload = write a)
    (hkind : ∀ k : Constant, (k.Storable ∧ k.tag = t) ↔ ∃ a, f a = k) :
    Codec (d >>= fun a => pure (f a)) payload fun k => k.Storable ∧ k.tag = t :=
  hd.map hpayload fun k => by
    rw [hkind]
    simp only [true_and]

/-- An entry that consists of two operands behind its tag. -/
theorem operands_codec {α β : Type} {d : Decoder α} {e : Decoder β} {write : α → Bytes}
    {writeSecond : β → Bytes} {f : α → β → Constant} {t : UInt8}
    (hd : Codec d write fun _ => True) (he : Codec e writeSecond fun _ => True)
    (hpayload : ∀ a b, (f a b).payload = write a ++ writeSecond b)
    (hkind : ∀ k : Constant, (k.Storable ∧ k.tag = t) ↔ ∃ a b, f a b = k) :
    Codec (d >>= fun a => e >>= fun b => pure (f a b)) payload fun k => k.Storable ∧ k.tag = t :=
  hd.map₂ he hpayload fun k => by
    rw [hkind]
    simp only [true_and]

/-- A text behind its tag: its length, and its bytes. -/
theorem text_codec {t : UInt8} (ht : t.toNat = 1) :
    Codec (word16 >>= fun length => take length.toNat >>= fun bytes => pure (.utf8 bytes)) payload
      fun k => k.Storable ∧ k.tag = t := by
  have hkind (k : Constant) : (k.Storable ∧ k.tag = t) ↔
      ∃ bytes, bytes.length < 65536 ∧ .utf8 bytes = k := by
    cases k <;> simp [Storable, tag, ← UInt8.toNat_inj, ht]
  constructor
  · intro k hk offset rest
    obtain ⟨bytes, hlength, rfl⟩ := (hkind k).mp hk
    have hcount : (UInt16.ofNat bytes.length).toNat = bytes.length := by
      rw [UInt16.toNat_ofNat', Nat.mod_eq_of_lt hlength]
    have hpayload : payload (.utf8 bytes) = bytes16 (UInt16.ofNat bytes.length) ++ bytes := rfl
    rw [hpayload, List.append_assoc, bind_of_ok (word16_codec.complete _ trivial offset _), hcount,
      bind_of_ok (take_append bytes _ rest), List.length_append, ← Nat.add_assoc]
    rfl
  · intro c k c' h
    obtain ⟨length, mid, hfirst, h⟩ := bind_ok h
    obtain ⟨bytes, hsecond, rfl⟩ := return_ok h
    obtain ⟨-, hrest, hoffset⟩ := word16_codec.sound _ _ _ hfirst
    obtain ⟨hlength, hrest', hoffset'⟩ := (take_codec _).sound _ _ _ hsecond
    obtain ⟨hfits, rfl⟩ := (ofNat_length_eq_iff bytes length).mpr hlength
    refine ⟨(hkind _).mpr ⟨bytes, hfits, rfl⟩, ?_, ?_⟩
    · rw [hrest, hrest', ← List.append_assoc]
      rfl
    · rw [hoffset', hoffset, Nat.add_assoc, ← List.length_append]
      rfl

theorem codec (slot : UInt16) : Codec (decode slot) toBytes Storable := by
  unfold decode
  refine (Codec.bind tag byte_codec
    fun t _ => (?_ : Codec _ payload fun k => k.Storable ∧ k.tag = t)).congr ?_ ?_
  · split
    case h_1 h => exact text_codec h
    case h_2 h | h_3 h =>
      exact operand_codec word32_codec (fun _ => rfl) fun k => by
        cases k <;> simp [Storable, tag, ← UInt8.toNat_inj, h]
    case h_4 h | h_5 h =>
      exact operand_codec word64_codec (fun _ => rfl) fun k => by
        cases k <;> simp [Storable, tag, ← UInt8.toNat_inj, h]
    case h_6 h | h_7 h | h_13 h | h_16 h | h_17 h =>
      exact operand_codec word16_codec (fun _ => rfl) fun k => by
        cases k <;> simp [Storable, tag, ← UInt8.toNat_inj, h]
    case h_8 h | h_9 h | h_10 h | h_11 h | h_14 h | h_15 h =>
      exact operands_codec word16_codec word16_codec (fun _ _ => rfl) fun k => by
        cases k <;> simp [Storable, tag, ← UInt8.toNat_inj, h]
    case h_12 h =>
      exact operands_codec byte_codec word16_codec (fun _ _ => rfl) fun k => by
        cases k <;> simp [Storable, tag, ← UInt8.toNat_inj, h]
    case h_18 =>
      refine Codec.refuse fun k hk => ?_
      cases k <;> simp_all [Storable, tag, ← UInt8.toNat_inj]
  · rintro k ⟨-, hk⟩
    exact (tag_cons_payload hk).symm
  · intro k
    rw [true_and]

end Constant

/-! ## Constant pools -/

namespace ConstantPool

/-- Slots as the format fills them: a two-slot number is followed by a slot that holds no entry, and
no other slot is empty. -/
inductive Filled : List Constant → Prop
  | nil : Filled []
  | narrow {k : Constant} {rest : List Constant} :
      k.Storable → k.isWide = false → Filled rest → Filled (k :: rest)
  | wide {k : Constant} {rest : List Constant} :
      k.isWide = true → Filled rest → Filled (k :: .unusable :: rest)

/-- A pool that the format can store. -/
structure WellFormed (pool : ConstantPool) : Prop where
  /-- Slot zero is empty, and the others are filled. -/
  filled : ∃ rest, pool.slots.toList = .unusable :: rest ∧ Filled rest
  /-- The number of slots fits its field. -/
  count_le : pool.count ≤ maxCount

theorem storable_of_isWide {k : Constant} (h : k.isWide = true) : k.Storable := by
  cases k <;> trivial

theorem toNat_add_one (index : UInt16) (h : index.toNat + 1 < 65536) :
    (index + 1).toNat = index.toNat + 1 := by
  rw [UInt16.toNat_add, UInt16.toNat_one]
  omega

theorem toNat_add_two (index : UInt16) (h : index.toNat + 2 < 65536) :
    (index + 2).toNat = index.toNat + 2 := by
  rw [UInt16.toNat_add, show (2 : UInt16).toNat = 2 from rfl]
  omega

theorem decodeSlots_complete (count : UInt16) {list : List Constant} (hlist : Filled list)
    (fuel : Nat) (index : UInt16) (slots : Array Constant) (offset : Nat) (rest : Bytes)
    (hcount : index.toNat + list.length = count.toNat) (hfuel : list.length ≤ fuel) :
    decodeSlots count fuel index slots ⟨offset, list.flatMap Constant.toBytes ++ rest⟩ =
      .ok (slots ++ list.toArray) ⟨offset + (list.flatMap Constant.toBytes).length, rest⟩ := by
  -- one step for an entry, narrow or wide; `index` never wraps, since it stays below `count`
  have hbound := count.toNat_lt
  induction hlist generalizing fuel index slots offset with
  | nil =>
    have hdone : ¬index < count := by
      simp only [List.length_nil] at hcount
      rw [UInt16.lt_iff_toNat_lt]
      omega
    cases fuel <;> simp [decodeSlots, hdone, pure, EStateM.pure]
  | @narrow k list hk hwide hlist ih =>
    obtain ⟨fuel, rfl⟩ : ∃ n, fuel = n + 1 := ⟨fuel - 1, by simp at hfuel; omega⟩
    simp only [List.length_cons] at hcount hfuel
    have hindex : index < count := by
      rw [UInt16.lt_iff_toNat_lt]
      omega
    have hnext := toNat_add_one index (by omega)
    rw [decodeSlots, if_pos hindex, List.flatMap_cons, List.append_assoc,
      bind_of_ok ((Constant.codec index).complete k hk offset _)]
    simp only [hwide, Bool.false_eq_true, if_false]
    rw [ih fuel (index + 1) (slots.push k) _ (by omega) (by omega)]
    simp [Nat.add_assoc]
  | @wide k list hwide hlist ih =>
    obtain ⟨fuel, rfl⟩ : ∃ n, fuel = n + 1 := ⟨fuel - 1, by simp at hfuel; omega⟩
    simp only [List.length_cons] at hcount hfuel
    have hone := toNat_add_one index (by omega)
    have htwo := toNat_add_two index (by omega)
    have hindex : index < count := by
      rw [UInt16.lt_iff_toNat_lt]
      omega
    have hroom : index + 1 < count := by
      rw [UInt16.lt_iff_toNat_lt]
      omega
    rw [decodeSlots, if_pos hindex, List.flatMap_cons, List.append_assoc,
      bind_of_ok ((Constant.codec index).complete k (storable_of_isWide hwide) offset _)]
    simp only [hwide, if_true, if_pos hroom]
    have hempty : (Constant.unusable :: list).flatMap Constant.toBytes =
        list.flatMap Constant.toBytes := rfl
    rw [hempty, ih fuel (index + 2) ((slots.push k).push .unusable) _ (by omega) (by omega)]
    simp [Nat.add_assoc]

/-- The slots from `index` on, below `count`, that reading from one cursor to another adds. -/
def AddsSlots (count index : Nat) (slots slots' : Array Constant) (c c' : Cursor) : Prop :=
  ∃ list, Filled list ∧ slots' = slots ++ list.toArray ∧ index + list.length = max index count ∧
    c.rest = list.flatMap Constant.toBytes ++ c'.rest ∧
    c'.offset = c.offset + (list.flatMap Constant.toBytes).length

theorem AddsSlots.stop {count index : Nat} (slots : Array Constant) (c : Cursor)
    (h : count ≤ index) : AddsSlots count index slots slots c c :=
  ⟨[], .nil, by simp, by simp only [List.length_nil]; omega, rfl, rfl⟩

theorem AddsSlots.narrow {count index : Nat} {slots slots' : Array Constant} {c mid c' : Cursor}
    {k : Constant} (hindex : index < count) (hk : k.Storable) (hwide : k.isWide = false)
    (hrest : c.rest = k.toBytes ++ mid.rest) (hoffset : mid.offset = c.offset + k.toBytes.length)
    (h : AddsSlots count (index + 1) (slots.push k) slots' mid c') :
    AddsSlots count index slots slots' c c' := by
  obtain ⟨list, hlist, rfl, hcount, hread, hend⟩ := h
  refine ⟨k :: list, .narrow hk hwide hlist, by simp, ?_, ?_, ?_⟩
  · simp only [List.length_cons]
    omega
  · rw [hrest, hread, List.flatMap_cons, List.append_assoc]
  · rw [hend, hoffset, List.flatMap_cons, List.length_append, Nat.add_assoc]

theorem AddsSlots.wide {count index : Nat} {slots slots' : Array Constant} {c mid c' : Cursor}
    {k : Constant} (hindex : index + 1 < count) (hwide : k.isWide = true)
    (hrest : c.rest = k.toBytes ++ mid.rest) (hoffset : mid.offset = c.offset + k.toBytes.length)
    (h : AddsSlots count (index + 2) ((slots.push k).push .unusable) slots' mid c') :
    AddsSlots count index slots slots' c c' := by
  obtain ⟨list, hlist, rfl, hcount, hread, hend⟩ := h
  refine ⟨k :: .unusable :: list, .wide hwide hlist, by simp, ?_, ?_, ?_⟩
  · simp only [List.length_cons]
    omega
  · rw [hrest, hread, List.flatMap_cons, List.append_assoc]
    rfl
  · rw [hend, hoffset, List.flatMap_cons, List.length_append, Nat.add_assoc]
    rfl

theorem decodeSlots_sound (count : UInt16) (fuel : Nat) (index : UInt16)
    (slots slots' : Array Constant) (c c' : Cursor) (hfuel : count.toNat ≤ index.toNat + fuel)
    (h : decodeSlots count fuel index slots c = .ok slots' c') :
    AddsSlots count.toNat index.toNat slots slots' c c' := by
  -- every step takes one fuel and moves the index on, so the fuel never ends before the count
  have hbound := count.toNat_lt
  induction fuel generalizing index slots c with
  | zero =>
    obtain ⟨rfl, rfl⟩ : slots = slots' ∧ c = c' := by
      simpa [decodeSlots, pure, EStateM.pure] using h
    exact .stop slots c (by omega)
  | succ fuel ih =>
    rw [decodeSlots] at h
    split at h
    case isFalse hdone =>
      obtain ⟨rfl, rfl⟩ : slots = slots' ∧ c = c' := by
        simpa [pure, EStateM.pure] using h
      rw [UInt16.lt_iff_toNat_lt] at hdone
      exact .stop slots c (by omega)
    case isTrue hindex =>
      rw [UInt16.lt_iff_toNat_lt] at hindex
      obtain ⟨k, mid, hk, h⟩ := bind_ok h
      obtain ⟨hstorable, hrest, hoffset⟩ := (Constant.codec index).sound _ _ _ hk
      have hone := toNat_add_one index (by omega)
      split at h
      case isFalse hwide =>
        have htail := ih (index + 1) (slots.push k) mid (by omega) h
        rw [hone] at htail
        exact .narrow hindex hstorable (by simpa using hwide) hrest hoffset htail
      case isTrue hwide =>
        split at h
        case isFalse => cases h
        case isTrue hroom =>
          rw [UInt16.lt_iff_toNat_lt, hone] at hroom
          have htwo := toNat_add_two index (by omega)
          have htail := ih (index + 2) ((slots.push k).push .unusable) mid (by omega) h
          rw [htwo] at htail
          exact .wide hroom hwide hrest hoffset htail

theorem decode_complete {pool : ConstantPool} (h : pool.WellFormed) (offset : Nat) (rest : Bytes) :
    decode ⟨offset, pool.toBytes ++ rest⟩ = .ok pool ⟨offset + pool.toBytes.length, rest⟩ := by
  obtain ⟨⟨list, hslots, hlist⟩, hle⟩ := h
  have hcount : pool.count = list.length + 1 := by
    rw [count, ← Array.length_toList, hslots, List.length_cons]
  have hfield : (UInt16.ofNat pool.count).toNat = list.length + 1 := by
    rw [UInt16.toNat_ofNat', hcount]
    simp only [maxCount] at hle
    omega
  have hbytes : pool.toBytes =
      BigEndian.bytes16 (UInt16.ofNat pool.count) ++ list.flatMap Constant.toBytes := by
    rw [toBytes, hslots]
    rfl
  have hpool : (⟨#[Constant.unusable] ++ list.toArray⟩ : ConstantPool) = pool := by
    obtain ⟨slots⟩ := pool
    simp only [mk.injEq]
    apply Array.toList_inj.mp
    rw [Array.toList_append]
    exact hslots.symm
  have hread := decodeSlots_complete (UInt16.ofNat pool.count) hlist
    (UInt16.ofNat pool.count).toNat 1 #[.unusable] (offset + 2) rest
    (by rw [hfield, Nat.add_comm]; rfl) (by omega)
  rw [decode, hbytes, List.append_assoc, bind_of_ok (word16_codec.complete _ trivial offset _)]
  simp only [length_bytes16]
  rw [bind_of_ok hread]
  simp only [hpool, List.length_append, length_bytes16, Nat.add_assoc]
  rfl

/-- Reading a pool gives one that can be stored. Its bytes are those read, unless it has no entry:
the count zero is read like the count one. -/
theorem decode_sound {pool : ConstantPool} {c c' : Cursor} (h : decode c = .ok pool c') :
    pool.WellFormed ∧ (1 < pool.count →
      c.rest = pool.toBytes ++ c'.rest ∧ c'.offset = c.offset + pool.toBytes.length) := by
  obtain ⟨count, mid, hcount, h⟩ := bind_ok h
  obtain ⟨slots, hslots, rfl⟩ := return_ok h
  obtain ⟨-, hrest, hoffset⟩ := word16_codec.sound _ _ _ hcount
  obtain ⟨list, hlist, rfl, htotal, hread, hend⟩ :=
    decodeSlots_sound count count.toNat 1 _ _ _ _ (by omega) hslots
  have hbound := count.toNat_lt
  have hone : (1 : UInt16).toNat = 1 := rfl
  have hlength : ConstantPool.count ⟨#[.unusable] ++ list.toArray⟩ = 1 + list.length := by
    simp [ConstantPool.count, Nat.add_comm]
  refine ⟨⟨⟨list, by simp, hlist⟩, ?_⟩, fun hentries => ?_⟩
  · rw [hlength]
    simp only [maxCount]
    omega
  · have hfield : UInt16.ofNat (1 + list.length) = count := by
      apply UInt16.toNat_inj.mp
      rw [UInt16.toNat_ofNat']
      omega
    have hbytes : ConstantPool.toBytes ⟨#[.unusable] ++ list.toArray⟩ =
        bytes16 count ++ list.flatMap Constant.toBytes := by
      rw [toBytes, hlength, hfield]
      simp
    rw [hbytes, hrest, hread, hend, hoffset, List.append_assoc, List.length_append, Nat.add_assoc]
    exact ⟨rfl, rfl⟩

/-- A pool in which some name resolves has an entry. -/
theorem WellFormed.one_lt_count {pool : ConstantPool} (h : pool.WellFormed) {index : UInt16}
    {name : String} (hname : pool.className index = .ok name) : 1 < pool.count := by
  obtain ⟨⟨list, hslots, -⟩, -⟩ := h
  cases list with
  | cons k list => simp [count, ← Array.length_toList, hslots]
  | nil =>
    have hget : pool.get? index = [Constant.unusable][index.toNat]? := by
      rw [get?, ← Array.getElem?_toList, hslots]
    -- slot zero holds no entry, so no name resolves
    have hnone : ∀ name, pool.get? index ≠ some (.classInfo name) := by
      intro name
      rw [hget]
      cases index.toNat <;> simp
    rw [className] at hname
    split at hname
    · exact absurd ‹_› (hnone _)
    · cases hname

end ConstantPool

/-! ## Class files -/

namespace ClassFile

/-- A class structure that the format can store. -/
structure WellFormed (c : ClassFile) : Prop where
  version : isSupportedVersion c.majorVersion = true
  pool : c.pool.WellFormed
  interfaces : c.interfaces.length < 65536
  fields : c.fields.toList.length < 65536 ∧ ∀ m ∈ c.fields.toList, m.Storable
  methods : c.methods.toList.length < 65536 ∧ ∀ m ∈ c.methods.toList, m.Storable
  attributes : c.attributes.toList.length < 65536 ∧ ∀ a ∈ c.attributes.toList, a.Storable

/-- The bytes of a class file behind its pool. -/
def bodyBytes (c : ClassFile) : Bytes :=
  bytes16 c.access ++ (bytes16 c.thisClass ++ (bytes16 c.superClass ++
    (countedBytes bytes16 c.interfaces ++ (countedBytes Member.toBytes c.fields.toList ++
      (countedBytes Member.toBytes c.methods.toList ++
        countedBytes Attribute.toBytes c.attributes.toList)))))

theorem toBytes_eq (c : ClassFile) :
    c.toBytes = bytes32 classFileMagic ++ (bytes16 c.minorVersion ++ (bytes16 c.majorVersion ++
      (c.pool.toBytes ++ c.bodyBytes))) := by
  simp only [toBytes, bodyBytes, List.append_assoc]

/-- A structure with what stands in front of its body given. -/
def HasHead (minorVersion majorVersion : UInt16) (pool : ConstantPool) (c : ClassFile) : Prop :=
  c.WellFormed ∧ c.minorVersion = minorVersion ∧ c.majorVersion = majorVersion ∧ c.pool = pool

/-- What stands behind the pool. -/
def decodeBody (minorVersion majorVersion : UInt16) (pool : ConstantPool) : Decoder ClassFile := do
  let access ← word16
  let thisClass ← word16
  let superClass ← word16
  let interfaces ← counted word16
  let fields ← counted Member.decode
  let methods ← counted Member.decode
  let attributes ← counted Attribute.decode
  return ⟨minorVersion, majorVersion, pool, access, thisClass, superClass, interfaces,
    fields.toArray, methods.toArray, attributes.toArray⟩

/-- One field of a structure, whose property follows from that of the whole. -/
theorem field_codec {α : Type} {d : Decoder α} {write : α → Bytes} {Valid : α → Prop}
    {f : α → Decoder ClassFile} {writeRest : ClassFile → Bytes} {Whole : ClassFile → Prop}
    (part : ClassFile → α) (hd : Codec d write Valid) (hvalid : ∀ c, Whole c → Valid (part c))
    (hf : ∀ a, Valid a → Codec (f a) writeRest fun c => Whole c ∧ part c = a) :
    Codec (d >>= f) (fun c => write (part c) ++ writeRest c) Whole :=
  (Codec.bind part hd hf).congr (fun _ _ => rfl) fun c =>
    ⟨fun h => ⟨hvalid c h, h⟩, fun h => h.2⟩

theorem body_codec {minorVersion majorVersion : UInt16} {pool : ConstantPool}
    (hversion : isSupportedVersion majorVersion = true) (hpool : pool.WellFormed) :
    Codec (decodeBody minorVersion majorVersion pool) bodyBytes
      (HasHead minorVersion majorVersion pool) := by
  refine field_codec (·.access) word16_codec (fun _ _ => trivial) fun access _ => ?_
  refine field_codec (·.thisClass) word16_codec (fun _ _ => trivial) fun thisClass _ => ?_
  refine field_codec (·.superClass) word16_codec (fun _ _ => trivial) fun superClass _ => ?_
  refine field_codec (·.interfaces) (counted_codec word16_codec)
    (fun c hc => ⟨hc.1.1.1.1.interfaces, fun _ _ => trivial⟩) fun interfaces hinterfaces => ?_
  refine field_codec (·.fields.toList) (counted_codec Member.codec)
    (fun c hc => hc.1.1.1.1.1.fields) fun fields hfields => ?_
  refine field_codec (·.methods.toList) (counted_codec Member.codec)
    (fun c hc => hc.1.1.1.1.1.1.methods) fun methods hmethods => ?_
  refine (counted_codec Attribute.codec).map (fun _ => rfl) fun c => ?_
  constructor
  · rintro ⟨⟨⟨⟨⟨⟨⟨hc, rfl, rfl, rfl⟩, rfl⟩, rfl⟩, rfl⟩, rfl⟩, rfl⟩, rfl⟩
    exact ⟨c.attributes.toList, hc.attributes, rfl⟩
  · rintro ⟨attributes, hattributes, rfl⟩
    exact ⟨⟨⟨⟨⟨⟨⟨⟨hversion, hpool, hinterfaces.1, hfields, hmethods, hattributes⟩, rfl, rfl, rfl⟩,
      rfl⟩, rfl⟩, rfl⟩, rfl⟩, rfl⟩, rfl⟩

theorem decodeMagic_codec : Codec decodeMagic (fun _ => bytes32 classFileMagic) fun _ => True where
  complete := by
    intro a _ offset rest
    rw [decodeMagic, bind_of_ok (word32_codec.complete _ trivial offset rest)]
    simp [pure, EStateM.pure]
  sound := by
    intro c a c' h
    obtain ⟨magic, mid, hmagic, h⟩ := bind_ok h
    obtain ⟨-, hrest, hoffset⟩ := word32_codec.sound _ _ _ hmagic
    split at h
    case isTrue => cases h
    case isFalse heq =>
      obtain rfl : mid = c' := by simpa [pure, EStateM.pure] using h
      obtain rfl : magic = classFileMagic := by simpa using heq
      exact ⟨trivial, hrest, hoffset⟩

/-- A class file is read as its head, its pool and its body. -/
theorem decode_eq : decode = (do
    decodeMagic
    let minorVersion ← word16
    let majorVersion ← word16
    if isSupportedVersion majorVersion then
      let pool ← ConstantPool.decode
      decodeBody minorVersion majorVersion pool
    else throw (.unsupportedVersion majorVersion minorVersion)) := by
  unfold decode
  congr 1
  funext _
  congr 1
  funext minorVersion
  congr 1
  funext majorVersion
  cases isSupportedVersion majorVersion <;> rfl

theorem decode_complete {c : ClassFile} (h : c.WellFormed) (offset : Nat) (rest : Bytes) :
    decode ⟨offset, c.toBytes ++ rest⟩ = .ok c ⟨offset + c.toBytes.length, rest⟩ := by
  rw [decode_eq, toBytes_eq]
  simp only [List.append_assoc]
  rw [bind_of_ok (decodeMagic_codec.complete () trivial offset _),
    bind_of_ok (word16_codec.complete c.minorVersion trivial _ _),
    bind_of_ok (word16_codec.complete c.majorVersion trivial _ _), if_pos h.version,
    bind_of_ok (ConstantPool.decode_complete h.pool _ _),
    (body_codec h.version h.pool).complete c ⟨h, rfl, rfl, rfl⟩ _ rest]
  simp only [List.length_append, Nat.add_assoc]

/-- Reading a class file gives one that can be stored. Its bytes are those read, provided its pool
has an entry. -/
theorem decode_sound {c : ClassFile} {start last : Cursor} (h : decode start = .ok c last) :
    c.WellFormed ∧ (1 < c.pool.count →
      start.rest = c.toBytes ++ last.rest ∧ last.offset = start.offset + c.toBytes.length) := by
  rw [decode_eq] at h
  obtain ⟨_, afterMagic, hmagic, h⟩ := bind_ok h
  obtain ⟨minorVersion, afterMinor, hminor, h⟩ := bind_ok h
  obtain ⟨majorVersion, afterMajor, hmajor, h⟩ := bind_ok h
  split at h
  case isFalse => cases h
  case isTrue hversion =>
    obtain ⟨pool, afterPool, hpool, h⟩ := bind_ok h
    obtain ⟨-, hrest₁, hoffset₁⟩ := decodeMagic_codec.sound _ _ _ hmagic
    obtain ⟨-, hrest₂, hoffset₂⟩ := word16_codec.sound _ _ _ hminor
    obtain ⟨-, hrest₃, hoffset₃⟩ := word16_codec.sound _ _ _ hmajor
    obtain ⟨hformed, hbytes⟩ := ConstantPool.decode_sound hpool
    obtain ⟨⟨hc, rfl, rfl, rfl⟩, hrest₅, hoffset₅⟩ :=
      (body_codec hversion hformed).sound _ _ _ h
    refine ⟨hc, fun hentries => ?_⟩
    -- only the pool may have been written differently
    obtain ⟨hrest₄, hoffset₄⟩ := hbytes hentries
    rw [toBytes_eq]
    constructor
    · simp only [hrest₁, hrest₂, hrest₃, hrest₄, hrest₅, List.append_assoc]
    · simp only [hoffset₁, hoffset₂, hoffset₃, hoffset₄, hoffset₅, List.length_append, Nat.add_assoc]

/-! ## Headers -/

/-- A header resolves exactly if it names the class, by a name that is usable as a path, and if its
superclass and interfaces are classes. -/
theorem resolveHeader_eq_ok {c : ClassFile} {name : String} :
    c.resolveHeader = .ok name ↔ c.pool.className c.thisClass = .ok name ∧ isPathName name = true ∧
      (c.superClass ≠ 0 → ∃ super, c.pool.className c.superClass = .ok super) ∧
      ∀ i ∈ c.interfaces, ∃ interface, c.pool.className i = .ok interface := by
  have hsuper (this : String) :
      (if c.superClass ≠ 0 then
        discard (c.pool.className c.superClass) >>= fun _ => do
          c.interfaces.forM fun i => discard (c.pool.className i)
          pure this
      else do
        c.interfaces.forM fun i => discard (c.pool.className i)
        pure this) = .ok name ↔
      (c.superClass ≠ 0 → ∃ super, c.pool.className c.superClass = .ok super) ∧
        (c.interfaces.forM fun i => discard (c.pool.className i)) = .ok () ∧ this = name := by
    split
    case isTrue h => simp [exceptSeq_eq_ok, discard_eq_ok, pure, Except.pure, h]
    case isFalse h => simp [exceptSeq_eq_ok, pure, Except.pure, h]
  rw [← forM_discard_eq_ok, resolveHeader, exceptBind_eq_ok]
  simp only [exceptGuard_eq_ok]
  constructor
  · rintro ⟨this, hthis, hpath, h⟩
    obtain ⟨hparent, hinterfaces, rfl⟩ := (hsuper this).mp h
    exact ⟨hthis, by simpa using hpath, hparent, hinterfaces⟩
  · rintro ⟨hthis, hpath, hparent, hinterfaces⟩
    exact ⟨name, hthis, by simpa using hpath, (hsuper name).mpr ⟨hparent, hinterfaces, rfl⟩⟩

end ClassFile

/-! ## Loaded classes -/

namespace LoadedClass

theorem parse_ok {source : Bytes} {c : LoadedClass} (h : parse source = .ok c) :
    c.source = source ∧ c.resolveHeader = .ok c.declaredName ∧
      ∃ last, ClassFile.decode (Cursor.start source) = .ok c.toClassFile last ∧ last.rest = [] := by
  obtain ⟨⟨d, rest⟩, hrun, h⟩ := exceptBind_eq_ok.mp h
  obtain ⟨hrest, h⟩ := exceptGuard_eq_ok.mp h
  obtain ⟨name, hname, h⟩ := exceptBind_eq_ok.mp h
  obtain rfl : _ = c := by simpa [pure, Except.pure] using h
  simp only [runOn] at hrun
  split at hrun
  case h_2 => cases hrun
  case h_1 last hdecode =>
    obtain ⟨rfl, rfl⟩ : _ = d ∧ last.rest = rest := by simpa using hrun
    exact ⟨rfl, hname, last, hdecode, by simpa using hrest⟩

theorem wellFormed_of_parse {source : Bytes} {c : LoadedClass} (h : parse source = .ok c) :
    c.toClassFile.WellFormed := by
  obtain ⟨-, -, last, hdecode, -⟩ := parse_ok h
  exact (ClassFile.decode_sound hdecode).1

/-- The structure of a class that was read is written back as the bytes it was read from. -/
theorem toBytes_of_parse {source : Bytes} {c : LoadedClass} (h : parse source = .ok c) :
    c.toBytes = source := by
  obtain ⟨-, hheader, last, hdecode, hrest⟩ := parse_ok h
  obtain ⟨hformed, hbytes⟩ := ClassFile.decode_sound hdecode
  obtain ⟨hthis, -⟩ := ClassFile.resolveHeader_eq_ok.mp hheader
  obtain ⟨hread, -⟩ := hbytes (hformed.pool.one_lt_count hthis)
  rw [hrest, List.append_nil] at hread
  exact hread.symm

/-- A structure that the format can store and whose header resolves is read back from its bytes. -/
theorem parse_toBytes {c : ClassFile} {name : String} (h : c.WellFormed)
    (hheader : c.resolveHeader = .ok name) :
    parse c.toBytes = .ok { c with declaredName := name, source := c.toBytes } := by
  have hdecode := ClassFile.decode_complete h 0 []
  rw [List.append_nil] at hdecode
  simp [parse, runOn, Cursor.start, hdecode, hheader, bind, Except.bind, pure, Except.pure]

end LoadedClass

end JvmRelocation
