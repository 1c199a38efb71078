import JvmRelocation.Proofs.Host.Directories

/-!
# Reading and writing inside a directory

A path of a store in a directory is refused, or it leads below where the store's root leads, name by
name. Reading changes nothing. Writing adds directories on the way to the file, and then the file.
-/

namespace JvmRelocation

open FileNode

/-! ## Below a root -/

namespace FileTree

/-- Where a path starts is not changed by what is joined to it. -/
theorem start_join (t : FileTree) (root : String) {path : String}
    (h : HostPath.isAbsolute path = false) : t.start (HostPath.join root path) = t.start root := by
  rw [start, start, HostPath.isAbsolute_join root h]

/-- A root leads where its segments lead that stand in front of what is joined to it. -/
theorem leads_of_rootSegments {t : FileTree} {root : String} {base : List String}
    (hbase : t.root.kindAt? base = some .directory)
    (h : follow t.root (t.start root) (HostPath.rootSegments root) = .ok base) :
    t.Leads root base := by
  rw [Leads]
  rcases HostPath.segments_root root with hsegments | hsegments
  · rwa [hsegments]
  · rw [hsegments, follow_append_eq_ok]
    exact ⟨base, h, follow_blanks hbase (by simp)⟩

theorem rootSegments_of_leads {t : FileTree} {root : String} {base : List String}
    (h : t.Leads root base) :
    follow t.root (t.start root) (HostPath.rootSegments root) = .ok base := by
  rw [Leads] at h
  rcases HostPath.segments_root root with hsegments | hsegments
  · rwa [hsegments] at h
  · rw [hsegments, follow_append_eq_ok] at h
    obtain ⟨middle, hmiddle, hblank⟩ := h
    obtain ⟨-, -, hend⟩ := follow_cons_eq_ok.mp hblank
    rwa [hmiddle]

/-- What a path below a root leads to is below where the root leads, name by name. -/
theorem base_of_leads_join {t : FileTree} {root path : String} {place : List String}
    (hpath : isPathName path = true) (hplace : (t.root.kindAt? place).isSome)
    (h : t.Leads (HostPath.join root path) place) :
    ∃ base, t.Leads root base ∧ place = base ++ segments path := by
  have habsolute := HostPath.isAbsolute_of_isPathName hpath
  rw [Leads, t.start_join root habsolute, HostPath.segments_join root habsolute,
    follow_append_eq_ok] at h
  obtain ⟨base, hbase, hbelow⟩ := h
  obtain rfl := follow_names (isPathName_eq_true.mp hpath) hbelow
  exact ⟨base, leads_of_rootSegments (kindAt?_of_append (segments_ne_nil path) hplace) hbase, rfl⟩

/-- What is below where a root leads is found by its path. -/
theorem leads_join {t : FileTree} {root path : String} {base : List String}
    (hroot : t.Leads root base) (hpath : isPathName path = true)
    (hshort : ∀ name ∈ segments path, name.utf8ByteSize ≤ maxNameBytes)
    (hplace : (t.root.kindAt? (base ++ segments path)).isSome) :
    t.Leads (HostPath.join root path) (base ++ segments path) := by
  have habsolute := HostPath.isAbsolute_of_isPathName hpath
  rw [Leads, t.start_join root habsolute, HostPath.segments_join root habsolute,
    follow_append_eq_ok]
  refine ⟨base, rootSegments_of_leads hroot, follow_of_isSome (fun name hname => ?_) hplace⟩
  exact ⟨isPathName_eq_true.mp hpath name hname, hshort name hname⟩

end FileTree

/-! ## Calls of the store -/

namespace DirectoryStore

open FileTree

variable {root path host : String}

/-- The host path of a path of proper names is the root with the path behind it. -/
theorem hostPath_eq_ok :
    hostPath root path = .ok host ↔ isPathName path = true ∧ host = HostPath.join root path := by
  rw [hostPath]
  split
  case isTrue hpath =>
    have hnames : ∀ name ∈ segments path, name ≠ "" ∧ '/' ∉ name.toList := fun name hname =>
      ⟨ne_empty_of_not_relative (isPathName_eq_true.mp hpath name hname),
        not_mem_of_mem_segments hname⟩
    rw [HostPath.foldl_join root (segments_ne_nil path) hnames, joined_segments]
    simp [hpath, eq_comm]
  case isFalse hpath => simp [hpath]

theorem hostPath_of_not_isPathName (root : String) (h : isPathName path = false) :
    hostPath root path = .error (refusal path) := by
  rw [hostPath, if_neg (by rw [h]; exact Bool.false_ne_true)]

theorem withPath_eq_ok {α : Type} {x : Except IoError α} {a : α} :
    withPath path x = .ok a ↔ x = .ok a := by
  cases x <;> simp [withPath]

/-- A query answers from the tree. -/
theorem query_eq_ok {α : Type} {operation : FileTree → Except HostFault α} {t : FileTree} {a : α} :
    (query operation t).1 = .ok a ↔ operation t = .ok a := by
  rw [query]
  cases operation t <;> simp

/-- Reading a path leaves the tree as it is. -/
theorem read_keeps (root path : String) (t : FileTree) :
    ((access fileSystem root).read path t).2 = t := by
  unfold access
  dsimp only
  cases hostPath root path with
  | error e => rfl
  | ok host => rfl

theorem read_eq_ok {t : FileTree} {content : Bytes} :
    ((access fileSystem root).read path t).1 = .ok content ↔
      isPathName path = true ∧ t.readFile (HostPath.join root path) = .ok content := by
  unfold access
  dsimp only
  cases hpath : isPathName path with
  | false =>
    rw [hostPath_of_not_isPathName root hpath]
    constructor
    · intro h
      cases h
    · rintro ⟨h, -⟩
      cases h
  | true =>
    rw [hostPath_eq_ok.mpr ⟨hpath, rfl⟩]
    change withPath _ (query (·.readFile (HostPath.join root path)) t).1 = .ok content ↔ _
    rw [withPath_eq_ok, query_eq_ok]
    simp

/-- What writing content at a path can do to a tree. -/
inductive WriteOutcome (root path : String) (bytes : Bytes) (t : FileTree) :
    Except IoError Unit → FileTree → Prop
  /-- The path is refused, and nothing happens. -/
  | refused (hpath : isPathName path = false) :
    WriteOutcome root path bytes t (.error (refusal path)) t
  /-- The file is not written. Directories in front of it may have been created. -/
  | failed {e : IoError} {t' : FileTree} (hpath : isPathName path = true)
    (hadded : DirectoriesAdded (HostPath.IsAncestor · (HostPath.join root path)) t t') :
    WriteOutcome root path bytes t (.error e) t'
  /-- The file is written where its path leads from then on. -/
  | written {between t' : FileTree} {place : List String} (hpath : isPathName path = true)
    (hcheck : checkPath (HostPath.join root path) = .ok ())
    (hadded : DirectoriesAdded (HostPath.IsAncestor · (HostPath.join root path)) t between)
    (hput : PutAt between t' place (.file bytes))
    (hleads : t'.Leads (HostPath.join root path) place) :
    WriteOutcome root path bytes t (.ok ()) t'

/-- The directories in front of a file are created for it. -/
theorem directoriesAdded_parent (host : String) (t : FileTree) :
    DirectoriesAdded (HostPath.IsAncestor · host) t
      (fileSystem.createDirectories ((HostPath.parent? host).getD "") t).2 := by
  cases hparent : HostPath.parent? host with
  | none => exact .refl _ t
  | some parent =>
    exact (AddsDirectories.createDirectories parent t).mono fun other hother =>
      hother.isAncestor (HostPath.isAncestor_of_parent? hparent)

theorem write_outcome (root path : String) (bytes : Bytes) (t : FileTree) :
    WriteOutcome root path bytes t ((access fileSystem root).write path bytes t).1
      ((access fileSystem root).write path bytes t).2 := by
  unfold access
  dsimp only
  cases hhost : hostPath root path with
  | error e =>
    cases hpath : isPathName path with
    | true =>
      rw [hostPath_eq_ok.mpr ⟨hpath, rfl⟩] at hhost
      cases hhost
    | false =>
      rw [hostPath_of_not_isPathName root hpath] at hhost
      cases hhost
      exact .refused hpath
  | ok host =>
    obtain ⟨hpath, rfl⟩ := hostPath_eq_ok.mp hhost
    have hadded := directoriesAdded_parent (HostPath.join root path) t
    dsimp only [bind, StateT.bind]
    generalize (fileSystem.createDirectories
      ((HostPath.parent? (HostPath.join root path)).getD "") t) = created at hadded ⊢
    obtain ⟨result, between⟩ := created
    cases result with
    | error e => exact .failed hpath hadded
    | ok _ =>
      change WriteOutcome root path bytes t
        (withPath _ (update (·.writeFile (HostPath.join root path) bytes) between).1)
        (update (·.writeFile (HostPath.join root path) bytes) between).2
      rw [update]
      cases hwrite : between.writeFile (HostPath.join root path) bytes with
      | error fault => exact .failed hpath hadded
      | ok t' =>
        obtain ⟨hcheck, place, hput, hleads⟩ := putAt_of_writeFile hwrite
        exact .written hpath hcheck hadded hput hleads

end DirectoryStore

end JvmRelocation
