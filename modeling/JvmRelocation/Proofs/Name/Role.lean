import JvmRelocation.Proofs.Name.Descriptor

/-!
# Texts in their roles

What a text is after a renaming, told by its role: a class name that is no array's descriptor is
looked up as a whole, an array stays an array, and a descriptor is renamed name by name.
-/

namespace JvmRelocation.NameRole

/-- What a text is after a renaming: what it becomes, or itself where it stays as it is. -/
def renamed (m : NameMapper) (text : String) (role : NameRole) : String :=
  (role.remap m text).getD text

theorem renamed_of_isArray {text : String} (h : isArray text = true) (m : NameMapper) :
    className.renamed m text = Descriptor.renamed m text := by
  rw [renamed, remap, if_pos h]
  rfl

/-- A class name that is no array's descriptor is looked up as a whole. -/
theorem renamed_of_not_isArray {text : String} (h : isArray text = false) (m : NameMapper) :
    className.renamed m text = m.rename text := by
  rw [renamed, remap, h, NameMapper.rename]
  cases htarget : m text with
  | none => rfl
  | some target =>
    by_cases heq : target = text
    · simp [Option.filter, heq]
    · simp [Option.filter, heq]

/-- An array stays an array. -/
theorem isArray_renamed {text : String} (h : isArray text = true) (m : NameMapper) :
    isArray (className.renamed m text) = true := by
  rw [renamed_of_isArray h]
  have hhead : text.toList.head? = some '[' := by simpa [isArray] using h
  simpa [isArray] using Descriptor.head?_renamed (m := m) (by decide) hhead

end JvmRelocation.NameRole
