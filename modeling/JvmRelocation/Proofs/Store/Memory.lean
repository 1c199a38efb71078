import JvmRelocation.Store.Memory

/-!
# Stores in memory

A store in memory lists its paths in order, each once, and one more file changes a single path.
-/

namespace JvmRelocation

/-- What a map says after one more entry. -/
theorem get?_treeInsert {α : Type} (map : Std.TreeMap String α) (key : String) (value : α)
    (key' : String) :
    (map.insert key value).get? key' = if key = key' then some value else map.get? key' := by
  rw [Std.TreeMap.get?_eq_getElem?, Std.TreeMap.getElem?_insert]
  simp only [Std.LawfulEqCmp.compare_eq_iff_eq, Std.TreeMap.get?_eq_getElem?]

namespace MemoryStore

theorem get?_insert (s : MemoryStore) (path place : String) (bytes : Bytes) :
    (s.insert place bytes).get? path = if place = path then some bytes else s.get? path :=
  get?_treeInsert s.files place bytes path

/-- No path is listed twice. -/
theorem classPaths_nodup (s : MemoryStore) : s.classPaths.Nodup := by
  have hkeys : s.files.keys.Nodup := by
    have h := Std.TreeMap.distinct_keys (t := s.files)
    refine h.imp fun hne heq => hne ?_
    exact Std.LawfulEqCmp.compare_eq_iff_eq.mpr heq
  exact hkeys.filter _

theorem mem_paths {s : MemoryStore} {path : String} : path ∈ s.paths ↔ (s.get? path).isSome := by
  rw [paths, Std.TreeMap.mem_keys, ← Std.TreeMap.isSome_getElem?_iff_mem, get?,
    Std.TreeMap.get?_eq_getElem?]

/-- Paths are listed in order. -/
theorem classPaths_sorted (s : MemoryStore) :
    s.classPaths.Pairwise fun path path' => compare path path' = .lt :=
  Std.TreeMap.ordered_keys.filter _

end MemoryStore

end JvmRelocation
