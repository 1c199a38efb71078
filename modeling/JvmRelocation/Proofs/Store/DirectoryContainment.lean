import JvmRelocation.Proofs.ClassFile.Codec
import JvmRelocation.Proofs.Store.DirectoryListing

/-!
# A store stays below its root

A path with a segment that is empty or relative is refused before the file system is asked anything.
Any other path has a host path of its own below the root. Reading it is a call about that host path
alone, and writing it is one about the host path and about directories in front of it. In a tree these
calls change the place where the host path leads, and directories on the way to it; nothing else. Every
path of a listing and every path of a relocated class is one that is not refused.
-/

namespace JvmRelocation

open FileNode FileTree

namespace DirectoryStore

/-! ## The calls that are made -/

section

variable {m : Type → Type} [Monad m] {root path host : String}

theorem read_refused (fs : FileSystem m) (hpath : isPathName path = false) :
    (access fs root).read path = pure (.error (refusal path)) := by
  unfold access
  dsimp only
  rw [hostPath_of_not_isPathName root hpath]

theorem write_refused (fs : FileSystem m) (hpath : isPathName path = false) (bytes : Bytes) :
    (access fs root).write path bytes = pure (.error (refusal path)) := by
  unfold access
  dsimp only
  rw [hostPath_of_not_isPathName root hpath]

theorem read_congr {fs fs' : FileSystem m} (hhost : hostPath root path = .ok host)
    (h : fs.readFile host = fs'.readFile host) :
    (access fs root).read path = (access fs' root).read path := by
  unfold access
  dsimp only
  rw [hhost]
  dsimp only
  rw [h]

/-- Whether two file systems write a file in the same way and do the same about the directories in
front of it. -/
structure AgreeOnWriting (fs fs' : FileSystem m) (host : String) : Prop where
  writeFile : fs.writeFile host = fs'.writeFile host
  makeDirectory : ∀ ancestor, HostPath.IsAncestor ancestor host →
    fs.makeDirectory ancestor = fs'.makeDirectory ancestor
  isDirectory : ∀ ancestor, HostPath.IsAncestor ancestor host →
    fs.isDirectory ancestor = fs'.isDirectory ancestor

theorem AgreeOnWriting.createDirectories_parent {fs fs' : FileSystem m}
    (h : AgreeOnWriting fs fs' host) :
    fs.createDirectories ((HostPath.parent? host).getD "") =
      fs'.createDirectories ((HostPath.parent? host).getD "") := by
  cases hparent : HostPath.parent? host with
  | none =>
    rw [Option.getD_none, FileSystem.createDirectories, FileSystem.createDirectories]
    rfl
  | some parent =>
    have hancestor := HostPath.isAncestor_of_parent? hparent
    exact FileSystem.createDirectoriesFrom_congr
      (fun other hother => h.makeDirectory other (hother.isAncestor hancestor))
      (fun other hother => h.isDirectory other (hother.isAncestor hancestor)) _

theorem write_congr {fs fs' : FileSystem m} (hhost : hostPath root path = .ok host)
    (h : AgreeOnWriting fs fs' host) (bytes : Bytes) :
    (access fs root).write path bytes = (access fs' root).write path bytes := by
  have hcreate := h.createDirectories_parent
  unfold access
  dsimp only
  rw [hhost]
  dsimp only
  rw [h.writeFile, hcreate]

end

/-! ## What happens in a tree -/

/-- What writing a path below a root does to a place: nothing, or the file is put there, or a
directory is made where there was nothing. -/
inductive PlaceAfterWrite (root path : String) (bytes : Bytes) (t t' : FileTree)
    (place : List String) : Prop where
  | kept (hsame : t'.root.kindAt? place = t.root.kindAt? place)
  /-- The place is where the path leads from the root, name by name. -/
  | file {base : List String} (hroot : t'.Leads root base) (hplace : place = base ++ segments path)
    (hfile : t'.root.kindAt? place = some (.file bytes))
  /-- The place is where an ancestor of the host path leads. -/
  | directory {ancestor : String}
    (hancestor : HostPath.IsAncestor ancestor (HostPath.join root path))
    (hleads : t'.Leads ancestor place) (hnone : t.root.kindAt? place = none)
    (hmade : t'.root.kindAt? place = some .directory)

variable {t t' between : FileTree} {root path : String} {bytes : Bytes}

theorem placeAfterWrite_of_added
    (h : DirectoriesAdded (HostPath.IsAncestor · (HostPath.join root path)) t t')
    (place : List String) : PlaceAfterWrite root path bytes t t' place := by
  rcases h.kindAt? place with hsame | ⟨hnone, hmade, ancestor, hancestor, hleads⟩
  · exact .kept hsame
  · exact .directory hancestor hleads hnone hmade

theorem placeAfterWrite (root path : String) (bytes : Bytes) (t : FileTree) (place : List String) :
    PlaceAfterWrite root path bytes t ((access fileSystem root).write path bytes t).2 place := by
  have houtcome := write_outcome root path bytes t
  generalize ((access fileSystem root).write path bytes t).1 = result at houtcome
  generalize ((access fileSystem root).write path bytes t).2 = t' at houtcome ⊢
  cases houtcome with
  | refused hpath => exact .kept rfl
  | failed hpath hadded => exact placeAfterWrite_of_added hadded place
  | @written between _ filePlace hpath hcheck hadded hput hleads =>
    by_cases hplace : place = filePlace
    · subst hplace
      obtain ⟨base, hbase, hbelow⟩ :=
        base_of_leads_join hpath (by rw [hput.kindAt?_place]; rfl) hleads
      exact .file hbase hbelow hput.kindAt?_place
    · have hkept := hput.kindAt?_eq place
      rw [if_neg hplace] at hkept
      rcases hadded.kindAt? place with hsame | ⟨hnone, hmade, ancestor, hancestor, hway⟩
      · exact .kept (hkept.trans hsame)
      · exact .directory hancestor (hput.grows.leads hway) hnone (hkept.trans hmade)

/-- A file that was written is found below the root. -/
theorem file_of_write (h : ((access fileSystem root).write path bytes t).1 = .ok ()) :
    ∃ base, ((access fileSystem root).write path bytes t).2.Leads root base ∧
      ((access fileSystem root).write path bytes t).2.root.kindAt? (base ++ segments path) =
        some (.file bytes) := by
  have houtcome := write_outcome root path bytes t
  rw [h] at houtcome
  generalize ((access fileSystem root).write path bytes t).2 = t' at houtcome ⊢
  cases houtcome with
  | written hpath hcheck hadded hput hleads =>
    have hfile := hput.kindAt?_place
    obtain ⟨base, hbase, rfl⟩ := base_of_leads_join hpath (by rw [hfile]; rfl) hleads
    exact ⟨base, hbase, hfile⟩

/-- A file that was read is below the root. -/
theorem file_of_read {content : Bytes}
    (h : ((access fileSystem root).read path t).1 = .ok content) :
    ∃ base, t.Leads root base ∧
      t.root.kindAt? (base ++ segments path) = some (.file content) := by
  obtain ⟨hpath, hread⟩ := read_eq_ok.mp h
  obtain ⟨-, place, hleads, hfile⟩ := readFile_eq_ok.mp hread
  obtain ⟨base, hbase, rfl⟩ := base_of_leads_join hpath (by rw [hfile]; rfl) hleads
  exact ⟨base, hbase, hfile⟩

/-! ## Paths and host paths -/

theorem hostPath_inj {path' host : String} (h : hostPath root path = .ok host)
    (h' : hostPath root path' = .ok host) : path = path' := by
  obtain ⟨hpath, rfl⟩ := hostPath_eq_ok.mp h
  obtain ⟨hpath', hsame⟩ := hostPath_eq_ok.mp h'
  exact (HostPath.join_inj (HostPath.isAbsolute_of_isPathName hpath)
    (HostPath.isAbsolute_of_isPathName hpath')).mp hsame

/-- A relocated class has a host path. -/
theorem hostPath_relocated (root : String) {tag : String} (htag : validateTag tag = .ok ())
    {source : Bytes} {c : LoadedClass} (hparse : LoadedClass.parse source = .ok c) :
    ∃ host, hostPath root (classPath (relocatedName tag c.declaredName)) = .ok host := by
  have hname : isPathName c.declaredName = true :=
    (ClassFile.resolveHeader_eq_ok.mp (LoadedClass.parse_ok hparse).2.1).2.1
  have hvalid := validTag_of_tagFault? (refuseFault_eq_ok htag)
  exact ⟨_, hostPath_eq_ok.mpr ⟨isPathName_classPath (isPathName_relocatedName hvalid hname), rfl⟩⟩

/-- Whether a path is refused, whatever the file system is. -/
structure Refused (root path : String) : Prop where
  improper : ∃ segment ∈ segments path, segment = "" ∨ segment = "." ∨ segment = ".."
  hostPath_eq : hostPath root path = .error (refusal path)
  read_eq : ∀ {m : Type → Type} [Monad m] (fs : FileSystem m),
    (access fs root).read path = pure (.error (refusal path))
  write_eq : ∀ {m : Type → Type} [Monad m] (fs : FileSystem m) (bytes : Bytes),
    (access fs root).write path bytes = pure (.error (refusal path))

/-- Whether what is done with a path is about a host path below the root alone, and about directories
in front of it. -/
structure Contained (root path host : String) : Prop where
  hostPath_eq : hostPath root path = .ok host
  host_eq : host = (segments path).foldl HostPath.join root
  proper : ∀ segment ∈ segments path, segment ≠ "" ∧ segment ≠ "." ∧ segment ≠ ".."
  read_eq : ∀ {m : Type → Type} [Monad m] (fs fs' : FileSystem m),
    fs.readFile host = fs'.readFile host →
    (access fs root).read path = (access fs' root).read path
  write_eq : ∀ {m : Type → Type} [Monad m] (fs fs' : FileSystem m), AgreeOnWriting fs fs' host →
    ∀ bytes, (access fs root).write path bytes = (access fs' root).write path bytes
  read_keeps : ∀ t, ((access fileSystem root).read path t).2 = t
  read_file : ∀ t content, ((access fileSystem root).read path t).1 = .ok content →
    ∃ base, t.Leads root base ∧ t.root.kindAt? (base ++ segments path) = some (.file content)
  write_places : ∀ t bytes place,
    PlaceAfterWrite root path bytes t ((access fileSystem root).write path bytes t).2 place
  write_file : ∀ t bytes, ((access fileSystem root).write path bytes t).1 = .ok () →
    ∃ base, ((access fileSystem root).write path bytes t).2.Leads root base ∧
      ((access fileSystem root).write path bytes t).2.root.kindAt? (base ++ segments path) =
        some (.file bytes)

theorem refused_of_not_isPathName (root : String) (hpath : isPathName path = false) :
    Refused root path where
  improper := by
    obtain ⟨segment, hsegment, hrelative⟩ := List.all_eq_false.mp hpath
    refine ⟨segment, hsegment, ?_⟩
    simpa only [Bool.not_eq_true, Bool.not_eq_false', isRelativeSegment, Bool.or_eq_true,
      decide_eq_true_eq, or_assoc] using hrelative
  hostPath_eq := hostPath_of_not_isPathName root hpath
  read_eq fs := read_refused fs hpath
  write_eq fs bytes := write_refused fs hpath bytes

theorem contained_of_isPathName (root : String) (hpath : isPathName path = true) :
    ∃ host, Contained root path host := by
  have hhost : hostPath root path = .ok ((segments path).foldl HostPath.join root) := by
    rw [hostPath, if_pos hpath]
  refine ⟨_, hhost, rfl, fun segment hsegment => ?_, fun fs fs' h => read_congr hhost h,
    fun fs fs' h bytes => write_congr hhost h bytes, fun t => read_keeps root path t,
    fun t content h => file_of_read h, fun t bytes place => placeAfterWrite root path bytes t place,
    fun t bytes h => file_of_write h⟩
  have hproper := isPathName_eq_true.mp hpath segment hsegment
  simpa [isRelativeSegment, and_assoc] using hproper

/-- **Nothing but what is below its root is touched by a store, and no path of a class is refused.** -/
theorem access_contained (root : String) :
    (∀ path, Refused root path ∧ (refusal path).kind = .invalidInput ∨
      ∃ host, Contained root path host) ∧
    (∀ path path' host, hostPath root path = .ok host → hostPath root path' = .ok host →
      path = path') ∧
    (∀ t paths, t.root.WellFormed → ((access fileSystem root).list t).1 = .ok paths →
      ∀ path ∈ paths, ∃ host, hostPath root path = .ok host) ∧
    ∀ tag source c, validateTag tag = .ok () → LoadedClass.parse source = .ok c →
      ∃ host, hostPath root (classPath (relocatedName tag c.declaredName)) = .ok host := by
  refine ⟨fun path => ?_, fun path path' host => hostPath_inj,
    fun t paths hwellFormed hlist path hpath => ?_,
    fun tag source c htag hparse => hostPath_relocated root htag hparse⟩
  · cases hpath : isPathName path with
    | false => exact .inl ⟨refused_of_not_isPathName root hpath, rfl⟩
    | true => exact .inr (contained_of_isPathName root hpath)
  · exact ⟨_, hostPath_eq_ok.mpr ⟨isPathName_of_mem_list hwellFormed hlist hpath, rfl⟩⟩

/-- A class file that declares the class `p/A`. -/
def plainClass : Bytes :=
  [0xca, 0xfe, 0xba, 0xbe, 0, 0, 0, 52, 0, 3, 1, 0, 3, 112, 47, 65, 7, 0, 1, 0, 33, 0, 2, 0, 0, 0, 0,
    0, 0, 0, 0, 0, 0]

/-- The class file in the working directory is listed, and what is listed has a host path, and so has
a relocated class. What leads out of the directory is refused. -/
theorem access_contained_oneClass :
    (∃ paths host, ((access fileSystem ".").list oneClassTree).1 = .ok paths ∧
      "A.class" ∈ paths ∧ hostPath "." "A.class" = .ok host) ∧
    (∃ c host, validateTag "v1" = .ok () ∧ LoadedClass.parse plainClass = .ok c ∧
      hostPath "." (classPath (relocatedName "v1" c.declaredName)) = .ok host) ∧
    Refused "." "../A.class" := by
  obtain ⟨hpaths, -, hlisted, hrelocated⟩ := access_contained "."
  refine ⟨?_, ?_, ?_⟩
  · obtain ⟨base, hroot⟩ := exists_rootAt wellFormed_oneClassTree
      (show oneClassTree.isDirectory "." = true by decide +kernel)
    obtain ⟨paths, hlist, hlists, -⟩ := list_fileTree hroot
    have hok : ((access fileSystem ".").list oneClassTree).1 = .ok paths := by rw [hlist]
    have hbase : oneClassTree.Leads "." [] := by rfl
    obtain rfl := hroot.leads.unique hbase
    have hmem : "A.class" ∈ paths := (hlists.mem_iff _).mpr
      (hroot.listedBelow_root.mpr ⟨⟨[1], by rfl⟩, by decide, by decide +kernel⟩)
    obtain ⟨host, hhost⟩ := hlisted _ _ wellFormed_oneClassTree hok _ hmem
    exact ⟨paths, host, hok, hmem, hhost⟩
  · obtain ⟨c, hparse, -⟩ := exists_ok_of_any
      (show (LoadedClass.parse plainClass).toOption.any (fun _ => true) = true by decide +kernel)
    have htag : validateTag "v1" = .ok () := by decide +kernel
    obtain ⟨host, hhost⟩ := hrelocated _ _ _ htag hparse
    exact ⟨c, host, htag, hparse, hhost⟩
  · rcases hpaths "../A.class" with ⟨hrefused, -⟩ | ⟨host, hcontained⟩
    · exact hrefused
    · exact absurd rfl (hcontained.proper ".." (by decide +kernel)).2.2

end DirectoryStore

end JvmRelocation
