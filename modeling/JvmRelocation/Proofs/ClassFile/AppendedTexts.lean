import JvmRelocation.Proofs.ClassFile.PoolTexts

/-!
# How many texts are appended

Texts are appended one after another, each once, and the index that a text got is the one it keeps.
So the number of slots that come to a pool is the number of different texts that were not known, and
that number alone decides whether there is room for them.
-/

namespace JvmRelocation

open ModifiedUtf8

namespace ConstantPool

/-! ## The texts that are not known yet -/

/-- The texts that are not known, in the order in which each occurs first. -/
def freshTexts (isKnown : String → Bool) : List String → List String
  | [] => []
  | text :: rest =>
    if isKnown text then freshTexts isKnown rest
    else text :: freshTexts (fun u => text == u || isKnown u) rest

theorem mem_freshTexts {isKnown : String → Bool} {texts : List String} {w : String} :
    w ∈ freshTexts isKnown texts ↔ w ∈ texts ∧ isKnown w = false := by
  induction texts generalizing isKnown with
  | nil => simp [freshTexts]
  | cons text rest ih =>
    rw [freshTexts]
    by_cases hknown : isKnown text = true
    · rw [if_pos hknown, ih, List.mem_cons]
      constructor
      · exact fun ⟨hrest, hw⟩ => ⟨.inr hrest, hw⟩
      · rintro ⟨rfl | hrest, hw⟩
        · rw [hknown] at hw
          cases hw
        · exact ⟨hrest, hw⟩
    · rw [if_neg hknown, List.mem_cons, List.mem_cons, ih]
      by_cases heq : w = text
      · subst heq
        simpa using hknown
      · simp [heq, Ne.symm heq]

/-- No text comes twice. -/
theorem nodup_freshTexts (isKnown : String → Bool) (texts : List String) :
    (freshTexts isKnown texts).Nodup := by
  induction texts generalizing isKnown with
  | nil => exact List.nodup_nil
  | cons text rest ih =>
    rw [freshTexts]
    split
    case isTrue => exact ih isKnown
    case isFalse =>
      refine List.nodup_cons.mpr ⟨fun hmem => ?_, ih _⟩
      obtain ⟨-, hunknown⟩ := mem_freshTexts.mp hmem
      simp at hunknown

theorem contains_insert_eq (known : Appended) (text : String) (index : UInt16) :
    (known.insert text index).contains = fun u => text == u || known.contains u := by
  funext u
  have hsame : (compare text u == .eq) = (text == u) := by
    rw [Bool.eq_iff_iff, beq_iff_eq, beq_iff_eq, Std.LawfulEqCmp.compare_eq_iff_eq]
  rw [Std.TreeMap.contains_insert, hsame]

/-! ## Appending -/

variable {pool pool' : ConstantPool} {known known' : Appended}

theorem count_of_append {more : List String}
    (h : pool'.slots.toList = pool.slots.toList ++ more.map fun w => .utf8 (encode w)) :
    pool'.count = pool.count + more.length := by
  have hlength := congrArg List.length h
  simpa [count] using hlength

/-- **There is room for the fresh texts, or there is none.** If they fit, appending succeeds and puts
exactly them behind the pool; otherwise it ends with an overflow. -/
theorem appendTexts_outcome (hcount : pool.count ≤ maxCount) (known : Appended)
    (texts : List String) :
    (maxCount < pool.count + (freshTexts known.contains texts).length ∧
        pool.appendTexts known texts = .error .poolOverflow) ∨
      (pool.count + (freshTexts known.contains texts).length ≤ maxCount ∧
        ∃ pool' known', pool.appendTexts known texts = .ok (pool', known') ∧
          pool'.slots.toList = pool.slots.toList ++
            (freshTexts known.contains texts).map fun w => .utf8 (encode w)) := by
  induction texts generalizing pool known with
  | nil => exact .inr ⟨hcount, pool, known, rfl, by simp [freshTexts]⟩
  | cons text rest ih =>
    rw [freshTexts, appendTexts]
    by_cases hknown : known.contains text = true
    · rw [if_pos hknown, if_pos hknown]
      exact ih hcount known
    · rw [if_neg hknown, if_neg hknown]
      by_cases hfull : maxCount ≤ pool.count
      -- no room for this text, so none for it and the others
      · refine .inl ⟨?_, ?_⟩
        · rw [List.length_cons]
          omega
        · rw [push, if_pos hfull]
      · have hpush : pool.push (encode text) =
            .ok (UInt16.ofNat pool.count, ⟨pool.slots.push (.utf8 (encode text))⟩) := by
          rw [push, if_neg hfull]
        obtain ⟨-, -, hslots⟩ := push_eq_ok hpush
        have hmid := count_of_push hpush
        have hcount' : (⟨pool.slots.push (.utf8 (encode text))⟩ : ConstantPool).count ≤
            maxCount := by
          omega
        have hrest := ih hcount' (known.insert text (UInt16.ofNat pool.count))
        rw [contains_insert_eq, hmid] at hrest
        rw [hpush, List.length_cons]
        rcases hrest with ⟨hover, herror⟩ | ⟨hroom, pool', known', hok, hslots'⟩
        · exact .inl ⟨by omega, herror⟩
        · refine .inr ⟨by omega, pool', known', hok, ?_⟩
          rw [hslots', hslots, List.append_assoc]
          rfl

/-- The two ways in which appending goes past a text: it is known, or it is pushed. -/
theorem appendTexts_cons_eq_ok {text : String} {rest : List String}
    (h : pool.appendTexts known (text :: rest) = .ok (pool', known')) :
    (known.contains text = true ∧ pool.appendTexts known rest = .ok (pool', known')) ∨
      (known.contains text = false ∧ ∃ index mid, pool.push (encode text) = .ok (index, mid) ∧
        mid.appendTexts (known.insert text index) rest = .ok (pool', known')) := by
  rw [appendTexts] at h
  split at h
  case isTrue hknown => exact .inl ⟨hknown, h⟩
  case isFalse hknown =>
    split at h
    case h_1 index mid hpush => exact .inr ⟨Bool.eq_false_iff.mpr hknown, index, mid, hpush, h⟩
    case h_2 => cases h

theorem getD_insert_of_contains {text t : String} {index : UInt16}
    (hknown : known.contains text = false) (ht : known.contains t = true) :
    (known.insert text index).getD t 0 = known.getD t 0 := by
  rw [Std.TreeMap.getD_insert, if_neg]
  intro heq
  obtain rfl : text = t := Std.LawfulEqOrd.eq_of_compare heq
  rw [hknown] at ht
  cases ht

/-- A text that is known keeps its index. -/
theorem getD_of_appendTexts {texts : List String}
    (h : pool.appendTexts known texts = .ok (pool', known')) {t : String}
    (ht : known.contains t = true) : known'.getD t 0 = known.getD t 0 := by
  induction texts generalizing pool known with
  | nil =>
    obtain ⟨-, rfl⟩ : pool = pool' ∧ known = known' := by simpa [appendTexts] using h
    rfl
  | cons text rest ih =>
    rcases appendTexts_cons_eq_ok h with ⟨-, hrest⟩ | ⟨hknown, index, mid, -, hrest⟩
    · exact ih hrest ht
    · have hkept : (known.insert text index).contains t = true := by
        rw [Std.TreeMap.contains_insert, ht, Bool.or_true]
      rw [ih hrest hkept, getD_insert_of_contains hknown ht]

/-- Appended texts have indices behind the end of the pool that was there. -/
theorem le_getD_of_appendTexts {texts : List String} {base : Nat}
    (h : pool.appendTexts known texts = .ok (pool', known')) (hbase : base ≤ pool.count)
    (hknown : ∀ t, known.contains t = true → base ≤ (known.getD t 0).toNat) {t : String}
    (ht : known'.contains t = true) : base ≤ (known'.getD t 0).toNat := by
  induction texts generalizing pool known with
  | nil =>
    obtain ⟨-, rfl⟩ : pool = pool' ∧ known = known' := by simpa [appendTexts] using h
    exact hknown t ht
  | cons text rest ih =>
    rcases appendTexts_cons_eq_ok h with ⟨-, hrest⟩ | ⟨hnew, index, mid, hpush, hrest⟩
    · exact ih hrest hbase hknown
    · obtain ⟨-, hindex, -⟩ := push_eq_ok hpush
      have hmid := count_of_push hpush
      refine ih hrest (by omega) fun u hu => ?_
      rw [Std.TreeMap.getD_insert]
      split
      case isTrue => omega
      case isFalse hne =>
        have hu' : known.contains u = true := by
          rw [Std.TreeMap.contains_insert] at hu
          simpa [hne] using hu
        exact hknown u hu'

end ConstantPool

end JvmRelocation
