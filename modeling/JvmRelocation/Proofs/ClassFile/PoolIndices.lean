import JvmRelocation.Proofs.ClassFile.RoundTrip

/-!
# Constants stand at their indices

The entries of a pool are numbered from one on, and a two-slot number takes two of the numbers. What
is read of a pool is an array in which each entry stands at the position that is its number. The
number that the reader counts in 16 bits never overflows, and a two-slot number for whose second half
no slot is left is refused.
-/

namespace JvmRelocation

open Decoder BigEndian

/-! ## Failures that a decoder does not have -/

namespace Decoder

/-- The decoder does not fail with the given error. -/
def NeverFails {α : Type} (e : FormatError) (d : Decoder α) : Prop :=
  ∀ c c', d c ≠ .error e c'

variable {α β γ : Type} {e : FormatError} {d : Decoder α} {index : UInt16} {expected : Expectation}

theorem neverFails_pure (a : α) : NeverFails e (pure a) := nofun

theorem NeverFails.bind {f : α → Decoder β} (hd : NeverFails e d) (hf : ∀ a, NeverFails e (f a)) :
    NeverFails e (d >>= f) := by
  intro c c' h
  rcases bind_error h with hfirst | ⟨a, mid, -, hthen⟩
  · exact hd c c' hfirst
  · exact hf a mid c' hthen

theorem NeverFails.map (hd : NeverFails e d) (f : α → β) :
    NeverFails e (d >>= fun a => pure (f a)) :=
  hd.bind fun _ => neverFails_pure _

theorem NeverFails.map₂ {d' : Decoder β} (hd : NeverFails e d) (hd' : NeverFails e d')
    (f : α → β → γ) : NeverFails e (d >>= fun a => d' >>= fun b => pure (f a b)) :=
  hd.bind fun a => hd'.map (f a)

theorem neverFails_take (n : Nat) : NeverFails (.badIndex index expected) (take n) := by
  intro c c' h
  unfold take at h
  dsimp only at h
  split at h <;> cases h

theorem neverFails_byte : NeverFails (.badIndex index expected) byte := by
  intro c c' h
  unfold byte at h
  split at h <;> cases h

theorem neverFails_word16 : NeverFails (.badIndex index expected) word16 := by
  intro c c' h
  unfold word16 at h
  split at h <;> cases h

theorem neverFails_word32 : NeverFails (.badIndex index expected) word32 := by
  intro c c' h
  unfold word32 at h
  split at h <;> cases h

theorem neverFails_word64 : NeverFails (.badIndex index expected) word64 :=
  neverFails_word32.map₂ neverFails_word32 BigEndian.word64

end Decoder

/-- How many slots an entry takes. -/
def Constant.width (k : Constant) : Nat :=
  if k.isWide then 2 else 1

namespace ConstantPool

/-! ## Entries and their slots -/

/-- The slots that entries fill one after another. -/
def slotsOf (entries : List Constant) : List Constant :=
  entries.flatMap fun k => if k.isWide then [k, .unusable] else [k]

/-- How many slots entries take. -/
def widthOf : List Constant → Nat
  | [] => 0
  | k :: entries => k.width + widthOf entries

/-- The index of the entry at a position, where the first entry of all has index one. -/
def indexOf (entries : List Constant) (position : Nat) : Nat :=
  1 + widthOf (entries.take position)

@[simp] theorem slotsOf_nil : slotsOf [] = [] := rfl

@[simp] theorem widthOf_nil : widthOf [] = 0 := rfl

@[simp] theorem widthOf_cons (k : Constant) (entries : List Constant) :
    widthOf (k :: entries) = k.width + widthOf entries := rfl

theorem width_pos (k : Constant) : 1 ≤ k.width := by
  rw [Constant.width]
  split <;> omega

theorem length_le_widthOf (entries : List Constant) : entries.length ≤ widthOf entries := by
  induction entries with
  | nil => exact Nat.le_refl 0
  | cons k entries ih =>
    have := width_pos k
    rw [widthOf_cons, List.length_cons]
    omega

theorem slotsOf_cons (k : Constant) (entries : List Constant) : slotsOf (k :: entries) =
    (if k.isWide then [k, .unusable] else [k]) ++ slotsOf entries := rfl

theorem slotsOf_narrow {k : Constant} (h : k.isWide = false) (entries : List Constant) :
    slotsOf (k :: entries) = k :: slotsOf entries := by
  simp [slotsOf_cons, h]

theorem slotsOf_wide {k : Constant} (h : k.isWide = true) (entries : List Constant) :
    slotsOf (k :: entries) = k :: .unusable :: slotsOf entries := by
  simp [slotsOf_cons, h]

theorem length_slotsOf (entries : List Constant) :
    (slotsOf entries).length = widthOf entries := by
  induction entries with
  | nil => rfl
  | cons k entries ih =>
    rw [slotsOf_cons, List.length_append, widthOf_cons, ih, Constant.width]
    split <;> rfl

/-- An empty slot has no bytes, so slots are written as their entries are. -/
theorem toBytes_slotsOf (entries : List Constant) :
    (slotsOf entries).flatMap Constant.toBytes = entries.flatMap Constant.toBytes := by
  induction entries with
  | nil => rfl
  | cons k entries ih =>
    rw [slotsOf_cons, List.flatMap_append, List.flatMap_cons, ih]
    split <;> simp [Constant.toBytes]

/-- Slots as the format fills them are those of entries that can be stored. -/
theorem filled_iff {list : List Constant} :
    Filled list ↔ ∃ entries, (∀ k ∈ entries, k.Storable) ∧ list = slotsOf entries := by
  constructor
  · intro h
    induction h with
    | nil => exact ⟨[], by simp, rfl⟩
    | @narrow k rest hk hwide _ ih =>
      obtain ⟨entries, hentries, rfl⟩ := ih
      exact ⟨k :: entries, List.forall_mem_cons.mpr ⟨hk, hentries⟩, (slotsOf_narrow hwide _).symm⟩
    | @wide k rest hwide _ ih =>
      obtain ⟨entries, hentries, rfl⟩ := ih
      exact ⟨k :: entries, List.forall_mem_cons.mpr ⟨storable_of_isWide hwide, hentries⟩,
        (slotsOf_wide hwide _).symm⟩
  · rintro ⟨entries, hentries, rfl⟩
    induction entries with
    | nil => exact .nil
    | cons k entries ih =>
      obtain ⟨hk, hrest⟩ := List.forall_mem_cons.mp hentries
      cases hwide : k.isWide with
      | false =>
        rw [slotsOf_narrow hwide]
        exact .narrow hk hwide (ih hrest)
      | true =>
        rw [slotsOf_wide hwide]
        exact .wide hwide (ih hrest)

/-- Every entry stands in the slot that its index says. -/
theorem getElem?_slotsOf {entries : List Constant} {position : Nat} {k : Constant}
    (h : entries[position]? = some k) :
    (slotsOf entries)[widthOf (entries.take position)]? = some k := by
  induction entries generalizing position with
  | nil => simp at h
  | cons first entries ih =>
    cases position with
    | zero =>
      obtain rfl : first = k := by simpa using h
      rw [slotsOf_cons]
      split <;> rfl
    | succ position =>
      have hrest := ih (by simpa using h)
      rw [List.take_succ_cons, widthOf_cons, slotsOf_cons, List.getElem?_append_right]
      · rw [← hrest, Constant.width]
        congr 1
        split <;> simp
      · rw [Constant.width]
        split <;> simp

/-- Every slot that is not empty holds an entry, at the index of that entry. -/
theorem exists_entry {entries : List Constant} {slot : Nat} {k : Constant}
    (h : (slotsOf entries)[slot]? = some k) (hne : k ≠ .unusable) :
    ∃ position, entries[position]? = some k ∧ widthOf (entries.take position) = slot := by
  induction entries generalizing slot with
  | nil => simp at h
  | cons first entries ih =>
    -- the slot is that of the first entry, the empty one behind it, or one of the others
    have hlater (slot' : Nat) (hslot : slot = first.width + slot')
        (h' : (slotsOf entries)[slot']? = some k) : ∃ position,
        (first :: entries)[position]? = some k ∧
          widthOf ((first :: entries).take position) = slot := by
      obtain ⟨position, hget, hwidth⟩ := ih h'
      exact ⟨position + 1, by simpa using hget, by rw [List.take_succ_cons, widthOf_cons, hwidth, hslot]⟩
    cases hwide : first.isWide with
    | false =>
      rw [slotsOf_narrow hwide] at h
      cases slot with
      | zero => exact ⟨0, by simpa using h, rfl⟩
      | succ slot =>
        refine hlater slot ?_ (by simpa using h)
        rw [Constant.width, hwide, Nat.add_comm]
        rfl
    | true =>
      rw [slotsOf_wide hwide] at h
      match slot with
      | 0 => exact ⟨0, by simpa using h, rfl⟩
      | 1 => exact absurd (by simpa using h.symm) hne
      | slot + 2 =>
        refine hlater slot ?_ (by simpa using h)
        rw [Constant.width, hwide, Nat.add_comm]
        rfl

/-! ## Additions that are checked -/

/-- The sum of two numbers of 16 bits, where it is one. -/
def checkedAdd (a b : UInt16) : Option UInt16 :=
  if a.toNat + b.toNat < 65536 then some (a + b) else none

/-- Reads entries as `decodeSlots` does, but checks the additions on the index. There is no result
where one overflows. -/
def decodeSlotsChecked (count : UInt16) :
    Nat → UInt16 → Array Constant → Decoder (Option (Array Constant))
  | 0, _, slots => pure (some slots)
  | fuel + 1, index, slots =>
    if index < count then do
      let constant ← Constant.decode index
      match checkedAdd index 1 with
      | none => pure none
      | some next =>
        if constant.isWide then
          if next < count then
            match checkedAdd index 2 with
            | none => pure none
            | some next =>
              decodeSlotsChecked count fuel next ((slots.push constant).push .unusable)
          else throw (.badIndex index .wideEntry)
        else decodeSlotsChecked count fuel next (slots.push constant)
    else pure (some slots)

/-- Reads a pool with checked additions. -/
def decodeChecked : Decoder (Option ConstantPool) := do
  let count ← word16
  return (← decodeSlotsChecked count count.toNat 1 #[.unusable]).map mk

theorem checkedAdd_one {index count : UInt16} (h : index < count) :
    checkedAdd index 1 = some (index + 1) := by
  have hbound := count.toNat_lt
  rw [UInt16.lt_iff_toNat_lt] at h
  exact if_pos (by rw [UInt16.toNat_one]; omega)

theorem checkedAdd_two {index count : UInt16} (h : index < count) (hroom : index + 1 < count) :
    checkedAdd index 2 = some (index + 2) := by
  have hbound := count.toNat_lt
  rw [UInt16.lt_iff_toNat_lt] at h hroom
  rw [toNat_add_one index (by omega)] at hroom
  exact if_pos (by rw [show (2 : UInt16).toNat = 2 from rfl]; omega)

/-- As long as the index is below the count, counting on cannot overflow. -/
theorem decodeSlotsChecked_eq (count : UInt16) (fuel : Nat) (index : UInt16)
    (slots : Array Constant) :
    decodeSlotsChecked count fuel index slots = some <$> decodeSlots count fuel index slots := by
  induction fuel generalizing index slots with
  | zero => rfl
  | succ fuel ih =>
    rw [decodeSlotsChecked, decodeSlots]
    split
    case isFalse => rfl
    case isTrue hindex =>
      rw [map_bind]
      congr 1
      funext constant
      rw [checkedAdd_one hindex]
      dsimp only
      split
      case isFalse => exact ih _ _
      case isTrue =>
        split
        case isFalse => rfl
        case isTrue hroom =>
          rw [checkedAdd_two hindex hroom]
          exact ih _ _

theorem decodeChecked_eq : decodeChecked = some <$> decode := by
  rw [decodeChecked, decode, map_bind]
  congr 1
  funext count
  rw [decodeSlotsChecked_eq]
  simp only [map_bind, bind_map_left, map_pure, Option.map_some]

/-! ## Reading on over entries -/

/-- Entries are read one after another, as long as they have room. -/
theorem decodeSlots_through (count : UInt16) {entries : List Constant}
    (hentries : ∀ k ∈ entries, k.Storable) (fuel : Nat) {index last : UInt16}
    (slots : Array Constant) (offset : Nat) (rest : Bytes)
    (hlast : last.toNat = index.toNat + widthOf entries) (hroom : last.toNat ≤ count.toNat) :
    decodeSlots count (fuel + entries.length) index slots
        ⟨offset, entries.flatMap Constant.toBytes ++ rest⟩ =
      decodeSlots count fuel last (slots ++ (slotsOf entries).toArray)
        ⟨offset + (entries.flatMap Constant.toBytes).length, rest⟩ := by
  have hbound := count.toNat_lt
  induction entries generalizing index slots offset with
  | nil =>
    obtain rfl : last = index := UInt16.toNat_inj.mp hlast
    simp
  | cons k entries ih =>
    obtain ⟨hk, hrest⟩ := List.forall_mem_cons.mp hentries
    have hone := width_pos k
    rw [widthOf_cons] at hlast
    have hindex : index < count := by
      rw [UInt16.lt_iff_toNat_lt]
      omega
    have hnext := toNat_add_one index (by omega)
    rw [List.length_cons, ← Nat.add_assoc, decodeSlots, if_pos hindex, List.flatMap_cons,
      List.append_assoc, bind_of_ok ((Constant.codec index).complete k hk offset _)]
    cases hwide : k.isWide with
    | false =>
      have hwidth : k.width = 1 := by simp [Constant.width, hwide]
      simp only [Bool.false_eq_true, if_false]
      rw [ih hrest (slots.push k) _ (by omega), slotsOf_narrow hwide]
      simp [Nat.add_assoc]
    | true =>
      have hwidth : k.width = 2 := by simp [Constant.width, hwide]
      have hnext' := toNat_add_two index (by omega)
      have hsecond : index + 1 < count := by
        rw [UInt16.lt_iff_toNat_lt]
        omega
      simp only [if_true, if_pos hsecond]
      rw [ih hrest _ _ (by omega), slotsOf_wide hwide]
      simp [Nat.add_assoc]

/-! ## Two-slot numbers without room -/

/-- The error that reports a two-slot number in the last slot. -/
abbrev noRoom (index : UInt16) : FormatError :=
  .badIndex index .wideEntry

/-- Reading an entry fails for want of bytes or because of its tag, never for want of a slot. -/
theorem neverFails_decode (slot index : UInt16) :
    NeverFails (noRoom index) (Constant.decode slot) := by
  have hpair (f : UInt16 → UInt16 → Constant) : NeverFails (noRoom index) _ :=
    neverFails_word16.map₂ neverFails_word16 f
  refine neverFails_byte.bind fun tag => ?_
  split
  case h_1 => exact neverFails_word16.bind fun length => (neverFails_take _).map Constant.utf8
  case h_2 => exact neverFails_word32.map Constant.integer
  case h_3 => exact neverFails_word32.map Constant.float
  case h_4 => exact neverFails_word64.map Constant.long
  case h_5 => exact neverFails_word64.map Constant.double
  case h_6 => exact neverFails_word16.map Constant.classInfo
  case h_7 => exact neverFails_word16.map Constant.stringLiteral
  case h_8 => exact hpair Constant.fieldRef
  case h_9 => exact hpair Constant.methodRef
  case h_10 => exact hpair Constant.interfaceMethodRef
  case h_11 => exact hpair Constant.nameAndType
  case h_12 => exact neverFails_byte.map₂ neverFails_word16 Constant.methodHandle
  case h_13 => exact neverFails_word16.map Constant.methodType
  case h_14 => exact hpair Constant.dynamic
  case h_15 => exact hpair Constant.invokeDynamic
  case h_16 => exact neverFails_word16.map Constant.moduleInfo
  case h_17 => exact neverFails_word16.map Constant.packageInfo
  case h_18 => exact nofun

/-- A stream holds entries that fill the slots from `index` on, and then a two-slot number, whose
index is `last`. -/
def WideAt (index last : Nat) (source rest : Bytes) : Prop :=
  ∃ (entries : List Constant) (k : Constant), (∀ e ∈ entries, e.Storable) ∧ k.isWide = true ∧
    source = entries.flatMap Constant.toBytes ++ (k.toBytes ++ rest) ∧ last = index + widthOf entries

theorem WideAt.cons {index last : Nat} {source mid rest : Bytes} {k : Constant} (hk : k.Storable)
    (hsource : source = k.toBytes ++ mid) (h : WideAt (index + k.width) last mid rest) :
    WideAt index last source rest := by
  obtain ⟨entries, k', hentries, hwide, rfl, rfl⟩ := h
  refine ⟨k :: entries, k', List.forall_mem_cons.mpr ⟨hk, hentries⟩, hwide, ?_, ?_⟩
  · rw [hsource, List.flatMap_cons, List.append_assoc]
  · rw [widthOf_cons, Nat.add_assoc]

/-- A two-slot number is refused only where it would stand in the last slot, and the entries before
it have been read. -/
theorem wideAt_of_noRoom {count index last : UInt16} {fuel : Nat} {slots : Array Constant}
    {c c' : Cursor} (h : decodeSlots count fuel index slots c = .error (noRoom last) c') :
    WideAt index.toNat last.toNat c.rest c'.rest ∧ last.toNat + 1 = count.toNat := by
  have hbound := count.toNat_lt
  induction fuel generalizing index slots c with
  | zero => cases h
  | succ fuel ih =>
    rw [decodeSlots] at h
    split at h
    case isFalse => cases h
    case isTrue hindex =>
      rw [UInt16.lt_iff_toNat_lt] at hindex
      have hone := toNat_add_one index (by omega)
      rcases bind_error h with hfirst | ⟨k, mid, hk, h⟩
      · exact absurd hfirst (neverFails_decode index last c c')
      · obtain ⟨hstorable, hrest, -⟩ := (Constant.codec index).sound _ _ _ hk
        cases hwide : k.isWide with
        | false =>
          have hwidth : k.width = 1 := by simp [Constant.width, hwide]
          simp only [hwide, Bool.false_eq_true, if_false] at h
          obtain ⟨hlater, hlast⟩ := ih h
          rw [hone, ← hwidth] at hlater
          exact ⟨hlater.cons hstorable hrest, hlast⟩
        | true =>
          have hwidth : k.width = 2 := by simp [Constant.width, hwide]
          simp only [hwide, if_true] at h
          split at h
          case isTrue hroom =>
            rw [UInt16.lt_iff_toNat_lt, hone] at hroom
            obtain ⟨hlater, hlast⟩ := ih h
            rw [toNat_add_two index (by omega), ← hwidth] at hlater
            exact ⟨hlater.cons hstorable hrest, hlast⟩
          case isFalse hroom =>
            rw [UInt16.lt_iff_toNat_lt, hone] at hroom
            obtain ⟨herror, rfl⟩ := EStateM.Result.error.inj h
            obtain rfl : index = last := by simpa [noRoom] using herror
            exact ⟨⟨[], k, by simp, hwide, by simpa using hrest, by simp⟩, by omega⟩

/-- A two-slot number that comes to stand in the last slot is refused. -/
theorem noRoom_of_wideAt {count last : UInt16} {fuel : Nat} {source rest : Bytes}
    (h : WideAt 1 last.toNat source rest) (hlast : last.toNat + 1 = count.toNat)
    (hfuel : count.toNat ≤ fuel) (offset : Nat) (slots : Array Constant) :
    ∃ c', decodeSlots count fuel 1 slots ⟨offset, source⟩ = .error (noRoom last) c' := by
  obtain ⟨entries, k, hentries, hwide, rfl, hindex⟩ := h
  have hbound := count.toNat_lt
  have hlength := length_le_widthOf entries
  obtain ⟨more, rfl⟩ : ∃ more, fuel = more + 1 + entries.length :=
    ⟨fuel - 1 - entries.length, by omega⟩
  have hbelow : last < count := by
    rw [UInt16.lt_iff_toNat_lt]
    omega
  have hroom : ¬last + 1 < count := by
    rw [UInt16.lt_iff_toNat_lt, toNat_add_one last (by omega)]
    omega
  rw [decodeSlots_through count hentries (more + 1) slots offset _ hindex (by omega), decodeSlots,
    if_pos hbelow,
    bind_of_ok ((Constant.codec last).complete k (storable_of_isWide hwide) _ rest)]
  simp only [hwide, if_true, if_neg hroom]
  exact ⟨_, rfl⟩

/-! ## Whole pools -/

/-- A stream declares a number of slots and goes on with entries. -/
structure Starts (count : UInt16) (entries : List Constant) (source rest : Bytes) : Prop where
  storable : ∀ k ∈ entries, k.Storable
  bytes : source = bytes16 count ++ (entries.flatMap Constant.toBytes ++ rest)

/-- A pool has the declared number of slots, slot zero at least, and holds exactly the given entries,
each in the slot that its index says. -/
structure Places (count : UInt16) (entries : List Constant) (pool : ConstantPool) : Prop where
  count_eq : pool.count = max 1 count.toNat
  laidOut : pool.LaidOut
  entry : ∀ position k, entries[position]? = some k →
    pool.slots[indexOf entries position]? = some k
  isEntry : ∀ index k, pool.slots[index]? = some k → k ≠ .unusable →
    ∃ position, entries[position]? = some k ∧ indexOf entries position = index

theorem places_of_slots {count : UInt16} {entries : List Constant} {pool : ConstantPool}
    (hslots : pool.slots.toList = .unusable :: slotsOf entries) (hlaidOut : pool.LaidOut)
    (hcount : indexOf entries entries.length = max 1 count.toNat) : Places count entries pool where
  count_eq := by
    rw [← hcount, indexOf, List.take_length, ConstantPool.count, ← Array.length_toList, hslots,
      List.length_cons, length_slotsOf, Nat.add_comm]
  laidOut := hlaidOut
  entry position k h := by
    rw [← Array.getElem?_toList, hslots, indexOf, Nat.add_comm, List.getElem?_cons_succ]
    exact getElem?_slotsOf h
  isEntry index k h hne := by
    rw [← Array.getElem?_toList, hslots] at h
    cases index with
    | zero => exact absurd (Option.some.inj h).symm hne
    | succ index =>
      rw [List.getElem?_cons_succ] at h
      obtain ⟨position, hget, hwidth⟩ := exists_entry h hne
      exact ⟨position, hget, by rw [indexOf, hwidth, Nat.add_comm]⟩

/-- What is read of a pool are entries that end where the count says. -/
theorem places_of_decode {pool : ConstantPool} {c c' : Cursor} (h : decode c = .ok pool c') :
    ∃ count entries, Starts count entries c.rest c'.rest ∧ Places count entries pool ∧
      indexOf entries entries.length = max 1 count.toNat := by
  have hlaidOut := (wellFormed_iff.mp (decode_sound h).1).1
  obtain ⟨count, mid, hcount, h⟩ := bind_ok h
  obtain ⟨slots, hslots, rfl⟩ := return_ok h
  obtain ⟨-, hrest, -⟩ := word16_codec.sound _ _ _ hcount
  obtain ⟨list, hlist, rfl, htotal, hread, -⟩ :=
    decodeSlots_sound count count.toNat 1 _ _ _ _ (by omega) hslots
  obtain ⟨entries, hentries, rfl⟩ := filled_iff.mp hlist
  rw [length_slotsOf, show (1 : UInt16).toNat = 1 from rfl] at htotal
  have hend : indexOf entries entries.length = max 1 count.toNat := by
    rw [indexOf, List.take_length, htotal]
  refine ⟨count, entries, ⟨hentries, ?_⟩, places_of_slots (by simp) hlaidOut hend, hend⟩
  rw [hrest, hread, toBytes_slotsOf]

/-- Entries that end where the count says are read. -/
theorem exists_decode {count : UInt16} {entries : List Constant} {c : Cursor} {rest : Bytes}
    (h : Starts count entries c.rest rest)
    (hend : indexOf entries entries.length = max 1 count.toNat) :
    ∃ pool c', decode c = .ok pool c' := by
  obtain ⟨offset, source⟩ := c
  obtain ⟨hentries, rfl⟩ := h
  rw [indexOf, List.take_length] at hend
  have hbound := count.toNat_lt
  rw [decode, bind_of_ok (word16_codec.complete count trivial offset _)]
  rcases Nat.eq_zero_or_pos count.toNat with hzero | hpos
  · -- the count zero is read like the count one
    rw [hzero]
    exact ⟨_, _, rfl⟩
  · have hlist := filled_iff.mpr ⟨entries, hentries, rfl⟩
    have hread := decodeSlots_complete count hlist count.toNat 1 #[.unusable]
      (offset + (bytes16 count).length) rest
      (by rw [length_slotsOf, show (1 : UInt16).toNat = 1 from rfl]; omega)
      (by rw [length_slotsOf]; omega)
    rw [toBytes_slotsOf] at hread
    exact ⟨_, _, bind_of_ok hread⟩

/-- A pool is refused for want of a slot exactly if its last slot is left for a two-slot number. -/
theorem decode_noRoom_iff {c : Cursor} {index : UInt16} :
    (∃ c', decode c = .error (noRoom index) c') ↔ ∃ count source rest,
      c.rest = bytes16 count ++ source ∧ WideAt 1 index.toNat source rest ∧
        index.toNat + 1 = count.toNat := by
  constructor
  · rintro ⟨c', h⟩
    rcases bind_error h with hcount | ⟨count, mid, hcount, h⟩
    · exact absurd hcount (neverFails_word16 c c')
    · obtain ⟨-, hrest, -⟩ := word16_codec.sound _ _ _ hcount
      rcases bind_error h with hslots | ⟨slots, last, -, h⟩
      · obtain ⟨hwide, hlast⟩ := wideAt_of_noRoom hslots
        exact ⟨count, mid.rest, c'.rest, hrest, hwide, hlast⟩
      · cases h
  · rintro ⟨count, source, rest, hrest, hwide, hlast⟩
    obtain ⟨offset, _⟩ := c
    obtain rfl := hrest
    obtain ⟨c', hslots⟩ := noRoom_of_wideAt hwide hlast (Nat.le_refl _)
      (offset + (bytes16 count).length) #[.unusable]
    refine ⟨c', ?_⟩
    rw [decode, bind_of_ok (word16_codec.complete count trivial offset source)]
    simp only [bind, EStateM.bind, hslots]

/-- **Constants stand at their indices.** Reading a pool with checked additions is reading it, on any
stream: counting the index never overflows. Reading succeeds exactly on streams of entries that end
where the declared count says. It then gives that many slots, slot zero at least; the entries stand at
their indices, and empty slots at index zero and behind two-slot numbers only. A two-slot number is
refused exactly if the last slot is left for it. -/
theorem decode_places_entries (c : Cursor) :
    decodeChecked c = (some <$> decode) c ∧
    ((∃ pool c', decode c = .ok pool c') ↔ ∃ count entries rest,
      Starts count entries c.rest rest ∧ indexOf entries entries.length = max 1 count.toNat) ∧
    (∀ pool c', decode c = .ok pool c' →
      ∃ count entries, Starts count entries c.rest c'.rest ∧ Places count entries pool) ∧
    ∀ index, (∃ c', decode c = .error (.badIndex index .wideEntry) c') ↔ ∃ count source rest,
      c.rest = bytes16 count ++ source ∧ WideAt 1 index.toNat source rest ∧
        index.toNat + 1 = count.toNat := by
  refine ⟨by rw [decodeChecked_eq], ⟨?_, ?_⟩, fun pool c' h => ?_, fun index => decode_noRoom_iff⟩
  · rintro ⟨pool, c', h⟩
    obtain ⟨count, entries, hstarts, -, hend⟩ := places_of_decode h
    exact ⟨count, entries, c'.rest, hstarts, hend⟩
  · rintro ⟨count, entries, rest, hstarts, hend⟩
    exact exists_decode hstarts hend
  · obtain ⟨count, entries, hstarts, hplaces, -⟩ := places_of_decode h
    exact ⟨count, entries, hstarts, hplaces⟩

/-- A two-slot number and a text, in front of more bytes. -/
def wideEntriesSample : Bytes :=
  [0, 4, 5, 0, 0, 0, 0, 0, 0, 0, 42, 1, 0, 1, 120, 9]

theorem decode_places_entries_wideEntries :
    (∃ pool c', decode (Cursor.start wideEntriesSample) = .ok pool c' ∧ pool.LaidOut) ∧
      ∃ c', decode (Cursor.start [0, 2, 5, 0, 0, 0, 0, 0, 0, 0, 42]) =
        .error (.badIndex 1 .wideEntry) c' := by
  have hentries : ∀ k ∈ [Constant.long 42, .utf8 [120]], k.Storable := by
    simp [Constant.Storable]
  obtain ⟨-, hsucceeds, hplaces, -⟩ := decode_places_entries (Cursor.start wideEntriesSample)
  obtain ⟨pool, c', hread⟩ := hsucceeds.mpr ⟨4, _, [9], ⟨hentries, rfl⟩, rfl⟩
  obtain ⟨count, entries, -, hpool⟩ := hplaces pool c' hread
  obtain ⟨-, -, -, hrefused⟩ :=
    decode_places_entries (Cursor.start [0, 2, 5, 0, 0, 0, 0, 0, 0, 0, 42])
  have hwide : WideAt 1 1 [5, 0, 0, 0, 0, 0, 0, 0, 42] [] :=
    ⟨[], .long 42, by simp, rfl, rfl, rfl⟩
  exact ⟨⟨pool, c', hread, hpool.laidOut⟩, (hrefused 1).mpr ⟨2, _, [], rfl, hwide, rfl⟩⟩

end ConstantPool

end JvmRelocation
