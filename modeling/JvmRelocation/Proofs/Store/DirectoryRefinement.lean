import JvmRelocation.Proofs.Failure
import JvmRelocation.Proofs.Store.DirectoryListing
import JvmRelocation.Proofs.Store.Memory

/-!
# A directory as a map from paths to contents

A store in a directory and a store in memory that hold the same files answer alike, whatever is asked
of them, as long as the directory does what it is asked. Only listings can differ: the directory leaves
out a class file whose host path is longer than a host takes, for the host then says of it neither that
it is a file nor that it is a directory.
-/

namespace JvmRelocation

open FileNode FileTree

/-! ## Operations on a store -/

/-- What can be asked of a class store. -/
inductive StoreOperation where
  | list
  | read (path : String)
  | write (path : String) (bytes : Bytes)

/-- What a class store can answer. -/
inductive StoreAnswer where
  | paths (list : List String)
  | content (bytes : Bytes)
  | written
deriving DecidableEq

namespace ClassStore

variable {m : Type → Type} [Monad m]

/-- Asks one thing of a store. -/
def perform (s : ClassStore m) : StoreOperation → m (Except IoError StoreAnswer)
  | .list => do return (← s.list).map .paths
  | .read path => do return (← s.read path).map .content
  | .write path bytes => do return (← s.write path bytes).map fun _ => .written

/-- Asks one thing of a store after the other. -/
def performAll (s : ClassStore m) : List StoreOperation → m (List (Except IoError StoreAnswer))
  | [] => return []
  | operation :: rest => do
    let answer ← s.perform operation
    let answers ← s.performAll rest
    return answer :: answers

section

variable {σ : Type} (s : ClassStore (StateM σ)) (state : σ)

theorem perform_list : s.perform .list state =
    ((s.list state).1.map .paths, (s.list state).2) := rfl

theorem perform_read (path : String) : s.perform (.read path) state =
    ((s.read path state).1.map .content, (s.read path state).2) := rfl

theorem perform_write (path : String) (bytes : Bytes) : s.perform (.write path bytes) state =
    ((s.write path bytes state).1.map fun _ => .written, (s.write path bytes state).2) := rfl

theorem performAll_cons (operation : StoreOperation) (rest : List StoreOperation) :
    s.performAll (operation :: rest) state =
      ((s.perform operation state).1 :: (s.performAll rest (s.perform operation state).2).1,
        (s.performAll rest (s.perform operation state).2).2) := rfl

end

end ClassStore

/-! ## Stores that hold the same files -/

/-- The files below the directory at a path, by their paths from there. -/
def FileTree.filesBelow (t : FileTree) (root : String) : List (String × Bytes) :=
  match t.locate root with
  | .ok node => node.files.map fun (names, content) => (Text.Json.joined "/" names, content)
  | .error _ => []

namespace DirectoryStore

/-- Whether a store in memory holds what is below a directory. -/
structure Mirrors (s : MemoryStore) (t : FileTree) (root : String) : Prop where
  wellFormed : t.root.WellFormed
  isDirectory : t.isDirectory root = true
  get?_eq_some : ∀ path content, s.get? path = some content ↔ (path, content) ∈ t.filesBelow root

end DirectoryStore

/-- An answer without the paths that are too long for a host. -/
def StoreAnswer.within (root : String) : StoreAnswer → StoreAnswer
  | paths list => paths (list.filter (DirectoryStore.hasHostPath root))
  | answer => answer

namespace DirectoryStore

variable {s : MemoryStore} {t t' : FileTree} {root path : String} {base : List String}

theorem RootAt.isDirectory (h : RootAt t root base) : t.isDirectory root = true :=
  isDirectory_eq_true.mpr ⟨h.checked, base, h.leads, h.directory⟩

theorem RootAt.of_grows (h : RootAt t root base) (hgrows : Grows t t') : RootAt t' root base :=
  ⟨hgrows.wellFormed h.wellFormed, h.checked, hgrows.leads h.leads, hgrows.directory h.directory⟩

/-- The files below a root are those of the places below where it leads. -/
theorem RootAt.mem_filesBelow (h : RootAt t root base) {content : Bytes} :
    (path, content) ∈ t.filesBelow root ↔
      t.root.kindAt? (base ++ segments path) = some (.file content) := by
  obtain ⟨entries, hentries⟩ := kindAt?_eq_directory.mp h.directory
  have hlocate := locate_eq_ok.mpr ⟨h.checked, base, h.leads, hentries⟩
  have hbelow : (FileNode.directory entries).WellFormed := h.wellFormed.of_find? hentries
  rw [FileTree.filesBelow, hlocate, List.mem_map]
  constructor
  · rintro ⟨⟨names, content'⟩, hfile, heq⟩
    obtain ⟨rfl, rfl⟩ := Prod.mk.inj heq
    rw [hbelow.mem_files] at hfile
    have hne : names ≠ [] := by
      rintro rfl
      cases hfile
    rw [← kindAt?_append hentries] at hfile
    have hnames := h.properNames (by rw [hfile]; rfl)
    rw [(isPathName_joined hne hnames).1, hfile]
  · intro hfile
    rw [kindAt?_append hentries] at hfile
    exact ⟨(segments path, content), hbelow.mem_files.mpr hfile, by simp only [joined_segments]⟩

theorem mirrors_iff (h : RootAt t root base) : Mirrors s t root ↔
    ∀ path content, s.get? path = some content ↔
      t.root.kindAt? (base ++ segments path) = some (.file content) := by
  constructor
  · intro hmirrors path content
    rw [hmirrors.get?_eq_some, h.mem_filesBelow]
  · intro hfiles
    exact ⟨h.wellFormed, h.isDirectory, fun path content => by rw [hfiles, h.mem_filesBelow]⟩

theorem Mirrors.rootAt (h : Mirrors s t root) : ∃ base, RootAt t root base :=
  exists_rootAt h.wellFormed h.isDirectory

/-! ## One operation -/

theorem Mirrors.list_eq (h : Mirrors s t root) :
    (access fileSystem root).list t = (.ok (s.classPaths.filter (hasHostPath root)), t) := by
  obtain ⟨base, hroot⟩ := h.rootAt
  have hfiles := (mirrors_iff hroot).mp h
  obtain ⟨paths, hlist, hlists, hsorted⟩ := list_fileTree hroot
  have hsame (path : String) :
      path ∈ paths ↔ path ∈ s.classPaths.filter (hasHostPath root) := by
    rw [hlists.mem_iff, hroot.listedBelow_root, List.mem_filter, MemoryStore.classPaths,
      List.mem_filter, MemoryStore.mem_paths, Option.isSome_iff_exists]
    simp only [hfiles, and_assoc]
  have hpaths : paths = s.classPaths.filter (hasHostPath root) := by
    refine List.Perm.eq_of_pairwise ?_ hsorted
      ((s.classPaths_sorted.imp compareOfLessAndEq_eq_lt.mp).filter _) ?_
    · intro a b _ _ hless hgreater
      exact absurd hgreater (String.lt_asymm hless)
    · exact (List.perm_ext_iff_of_nodup hlists.nodup (s.classPaths_nodup.filter _)).mpr hsame
  rw [hlist, hpaths]

theorem Mirrors.read_eq (h : Mirrors s t root) {content : Bytes}
    (hread : ((access fileSystem root).read path t).1 = .ok content) :
    s.get? path = some content := by
  obtain ⟨base, hroot⟩ := h.rootAt
  obtain ⟨hpath, hfile⟩ := read_eq_ok.mp hread
  obtain ⟨-, place, hplace, hkind⟩ := readFile_eq_ok.mp hfile
  obtain ⟨base', hbase, rfl⟩ := base_of_leads_join hpath (by rw [hkind]; rfl) hplace
  obtain rfl := hbase.unique hroot.leads
  exact ((mirrors_iff hroot).mp h path content).mpr hkind

theorem Mirrors.write_eq (h : Mirrors s t root) {bytes : Bytes}
    (hwrite : ((access fileSystem root).write path bytes t).1 = .ok ()) :
    Mirrors (s.insert path bytes) ((access fileSystem root).write path bytes t).2 root ∧
      hasHostPath root path = true := by
  obtain ⟨base, hroot⟩ := h.rootAt
  have houtcome := write_outcome root path bytes t
  rw [hwrite] at houtcome
  generalize ((access fileSystem root).write path bytes t).2 = t' at houtcome
  cases houtcome with
  | @written between _ place hpath hcheck hadded hput hleads =>
    have hroot' := hroot.of_grows (hadded.grows.trans hput.grows)
    obtain ⟨base', hbase, rfl⟩ := base_of_leads_join hpath (by rw [hput.kindAt?_place]; rfl) hleads
    obtain rfl := hbase.unique hroot'.leads
    refine ⟨(mirrors_iff hroot').mpr fun path' content => ?_, ?_⟩
    · rw [MemoryStore.get?_insert, hput.kindAt?_eq]
      by_cases hsame : path' = path
      · subst hsame
        simp
      · have hplace : base' ++ segments path' ≠ base' ++ segments path := fun hplace =>
          hsame (segments_inj.mp (List.append_cancel_left hplace))
        rw [if_neg hplace, if_neg (Ne.symm hsame), hadded.file_iff]
        exact (mirrors_iff hroot).mp h path' content
    · exact decide_eq_true (checkPath_eq_ok.mp hcheck).2.1

/-- Whether a host takes the paths of all class files of a store below a root. -/
def HasHostPaths (root : String) (s : MemoryStore) : Prop :=
  ∀ path ∈ s.classPaths, hasHostPath root path = true

instance (root : String) (s : MemoryStore) : Decidable (HasHostPaths root s) :=
  inferInstanceAs (Decidable (∀ path ∈ s.classPaths, hasHostPath root path = true))

/-- What the two stores answer to one operation, and that they hold the same files afterwards. -/
structure AnswersAlike (root : String) (s s' : MemoryStore) (t' : FileTree)
    (answer answer' : Except IoError StoreAnswer) : Prop where
  within : answer = answer'.map (·.within root)
  exact : HasHostPaths root s → answer = answer' ∧ HasHostPaths root s'
  mirrors : Mirrors s' t' root

/-- **One operation** that succeeds in the directory. -/
theorem Mirrors.perform (h : Mirrors s t root) {operation : StoreOperation} {answer : StoreAnswer}
    (hok : ((access fileSystem root).perform operation t).1 = .ok answer) :
    AnswersAlike root s (MemoryStore.access.perform operation s).2
      ((access fileSystem root).perform operation t).2
      ((access fileSystem root).perform operation t).1 (MemoryStore.access.perform operation s).1 := by
  cases operation with
  | list =>
    have hmemory : MemoryStore.access.list s = (.ok s.classPaths, s) := rfl
    rw [ClassStore.perform_list, ClassStore.perform_list, h.list_eq, hmemory]
    refine ⟨rfl, fun hfits => ⟨?_, hfits⟩, h⟩
    rw [List.filter_eq_self.mpr hfits]
  | read path =>
    rw [ClassStore.perform_read] at hok
    obtain ⟨content, hread, -⟩ := exceptMap_eq_ok.mp hok
    have hmemory : MemoryStore.access.read path s = (.ok content, s) := by
      change (s.read path, s) = _
      rw [MemoryStore.read, h.read_eq hread]
    have hkept : ((access fileSystem root).read path t).2 = t := read_keeps root path t
    rw [ClassStore.perform_read, ClassStore.perform_read, hread, hkept, hmemory]
    exact ⟨rfl, fun hfits => ⟨rfl, hfits⟩, h⟩
  | write path bytes =>
    rw [ClassStore.perform_write] at hok
    obtain ⟨⟨⟩, hwrite, -⟩ := exceptMap_eq_ok.mp hok
    obtain ⟨hmirrors, hfits⟩ := h.write_eq hwrite
    have hmemory : MemoryStore.access.write path bytes s = (.ok (), s.insert path bytes) := rfl
    rw [ClassStore.perform_write, ClassStore.perform_write, hwrite, hmemory]
    refine ⟨rfl, fun hold => ⟨rfl, fun place hplace => ?_⟩, hmirrors⟩
    rw [MemoryStore.classPaths, List.mem_filter, MemoryStore.mem_paths, MemoryStore.get?_insert]
      at hplace
    by_cases hsame : path = place
    · rwa [← hsame]
    · rw [if_neg hsame, ← MemoryStore.mem_paths, ← List.mem_filter] at hplace
      exact hold place hplace

/-! ## Any number of operations -/

/-- **Operations that all succeed in the directory** give the answers that the store in memory gives,
and both hold the same files afterwards. -/
theorem Mirrors.performAll (h : Mirrors s t root) (operations : List StoreOperation)
    (hok : ∀ answer ∈ ((access fileSystem root).performAll operations t).1, ∃ a, answer = .ok a) :
    ((access fileSystem root).performAll operations t).1 =
        (MemoryStore.access.performAll operations s).1.map (·.map (·.within root)) ∧
      (HasHostPaths root s → ((access fileSystem root).performAll operations t).1 =
        (MemoryStore.access.performAll operations s).1) ∧
      Mirrors (MemoryStore.access.performAll operations s).2
        ((access fileSystem root).performAll operations t).2 root := by
  induction operations generalizing s t with
  | nil => exact ⟨rfl, fun _ => rfl, h⟩
  | cons operation rest ih =>
    rw [ClassStore.performAll_cons] at hok
    obtain ⟨⟨answer, hanswer⟩, hrest⟩ := List.forall_mem_cons.mp hok
    have hstep := h.perform hanswer
    obtain ⟨hwithin, hexact, hmirrors⟩ := ih hstep.mirrors hrest
    rw [ClassStore.performAll_cons, ClassStore.performAll_cons]
    refine ⟨?_, fun hfits => ?_, hmirrors⟩
    · rw [List.map_cons, ← hstep.within, ← hwithin]
    · obtain ⟨hsame, hfits'⟩ := hstep.exact hfits
      rw [hsame, hexact hfits']

/-- An operation that fails in a directory changes no file. -/
theorem file_iff_of_error {operation : StoreOperation} {e : IoError}
    (h : ((access fileSystem root).perform operation t).1 = .error e) (place : List String)
    (content : Bytes) :
    ((access fileSystem root).perform operation t).2.root.kindAt? place = some (.file content) ↔
      t.root.kindAt? place = some (.file content) := by
  cases operation with
  | list => rw [ClassStore.perform_list, keeps_list root t]
  | read path => rw [ClassStore.perform_read, read_keeps]
  | write path bytes =>
    rw [ClassStore.perform_write] at h ⊢
    have houtcome := write_outcome root path bytes t
    generalize (access fileSystem root).write path bytes t = result at h houtcome ⊢
    obtain ⟨answer, t'⟩ := result
    cases houtcome with
    | refused hpath => rfl
    | failed hpath hadded => exact hadded.file_iff
    | written hpath hcheck hadded hput hleads => cases h

/-- **A store in a directory does what one in memory does.** Of stores that hold the same files, asked
the same things, where the directory does all it is asked, the answers are the same, but that the
listings of the directory leave out the paths that are too long for a host; and the files are the same
afterwards. Whatever fails in a directory changes no file. -/
theorem performs_like_memory (t : FileTree) (root : String) :
    (∀ s operations, Mirrors s t root →
      (∀ answer ∈ ((access fileSystem root).performAll operations t).1, ∃ a, answer = .ok a) →
      ((access fileSystem root).performAll operations t).1 =
          (MemoryStore.access.performAll operations s).1.map (·.map (·.within root)) ∧
        (HasHostPaths root s → ((access fileSystem root).performAll operations t).1 =
          (MemoryStore.access.performAll operations s).1) ∧
        Mirrors (MemoryStore.access.performAll operations s).2
          ((access fileSystem root).performAll operations t).2 root) ∧
    ∀ operation e, ((access fileSystem root).perform operation t).1 = .error e →
      ∀ place content,
        ((access fileSystem root).perform operation t).2.root.kindAt? place = some (.file content) ↔
          t.root.kindAt? place = some (.file content) :=
  ⟨fun _ operations h hok => h.performAll operations hok,
    fun _ _ h place content => file_iff_of_error h place content⟩

/-! ## A root with many slashes -/

/-- The store in memory with the same file. -/
def oneClassStore : MemoryStore :=
  MemoryStore.empty.insert "A.class" [1]

theorem mirrors_oneClass (hroot : oneClassTree.isDirectory root = true)
    (hleads : oneClassTree.Leads root []) : Mirrors oneClassStore oneClassTree root where
  wellFormed := wellFormed_oneClassTree
  isDirectory := hroot
  get?_eq_some path content := by
    have hlocate := locate_eq_ok.mpr ⟨(isDirectory_eq_true.mp hroot).1, [], hleads, find?_nil _⟩
    have hfiles : oneClassTree.filesBelow root = [("A.class", [1])] := by
      rw [FileTree.filesBelow, hlocate]
      rfl
    rw [hfiles, oneClassStore, MemoryStore.get?_insert, List.mem_singleton, Prod.mk.injEq]
    by_cases hpath : "A.class" = path
    · subst hpath
      simp [eq_comm]
    · have hempty : MemoryStore.empty.get? path = none := rfl
      simp [hpath, Ne.symm hpath, hempty]

/-- Writing a second class file, listing and reading it: the two stores do the same. A path that leads
out of the directory is refused, and the class file stays as it is. -/
theorem performs_like_memory_oneClass :
    Mirrors oneClassStore oneClassTree "." ∧
      ((access fileSystem ".").performAll [.write "p/B.class" [2], .list, .read "p/B.class"]
          oneClassTree).1 =
        (MemoryStore.access.performAll [.write "p/B.class" [2], .list, .read "p/B.class"]
          oneClassStore).1 ∧
      ((access fileSystem ".").perform (.write "../A.class" [2]) oneClassTree).1 =
        .error (refusal "../A.class") ∧
      ((access fileSystem ".").perform (.write "../A.class" [2]) oneClassTree).2.root.kindAt?
        ["A.class"] = some (.file [1]) := by
  have hmirrors : Mirrors oneClassStore oneClassTree "." :=
    mirrors_oneClass (by decide +kernel) (by rfl)
  have hwrite : ((access fileSystem ".").write "p/B.class" [2] oneClassTree).1 = .ok () := by
    decide +kernel
  have hlist := (hmirrors.write_eq hwrite).1.list_eq
  have hread : ((access fileSystem ".").read "p/B.class"
      ((access fileSystem ".").write "p/B.class" [2] oneClassTree).2).1 = .ok [2] := by
    decide +kernel
  have hok : ∀ answer ∈ ((access fileSystem ".").performAll
      [.write "p/B.class" [2], .list, .read "p/B.class"] oneClassTree).1,
      ∃ a, answer = .ok a := by
    rw [ClassStore.performAll_cons, ClassStore.perform_write, hwrite, ClassStore.performAll_cons,
      ClassStore.perform_list, hlist, ClassStore.performAll_cons, ClassStore.perform_read, hread]
    intro answer hanswer
    simp only [List.mem_cons] at hanswer
    rcases hanswer with rfl | rfl | rfl | hnone
    · exact ⟨_, rfl⟩
    · exact ⟨_, rfl⟩
    · exact ⟨_, rfl⟩
    · cases hnone
  have hfits : HasHostPaths "." oneClassStore := by decide +kernel
  have hrefused : ((access fileSystem ".").perform (.write "../A.class" [2]) oneClassTree).1 =
      .error (refusal "../A.class") := by decide +kernel
  obtain ⟨hsame, hkept⟩ := performs_like_memory oneClassTree "."
  exact ⟨hmirrors, (hsame oneClassStore _ hmirrors hok).2.1 hfits, hrefused,
    (hkept _ _ hrefused ["A.class"] [1]).mpr rfl⟩

/-- The working directory, with blank segments behind it. -/
def blankRoot : Nat → String
  | 0 => "."
  | n + 1 => blankRoot n ++ "/"

theorem utf8ByteSize_blankRoot (n : Nat) : (blankRoot n).utf8ByteSize = n + 1 := by
  induction n with
  | zero => rfl
  | succ n ih =>
    rw [blankRoot, String.utf8ByteSize_append, ih]
    rfl

theorem segments_blankRoot (n : Nat) : segments (blankRoot n) = "." :: List.replicate n "" := by
  induction n with
  | zero => rfl
  | succ n ih =>
    rw [blankRoot, ← String.append_empty (s := blankRoot n ++ "/"), segments_slash, ih,
      List.replicate_succ']
    rfl

theorem blankRoot_no_zero (n : Nat) : ∀ c ∈ (blankRoot n).toList, c.toNat ≠ 0 := by
  induction n with
  | zero =>
    intro c hc
    obtain rfl : c = '.' := by simpa [blankRoot] using hc
    decide
  | succ n ih =>
    intro c hc
    rw [blankRoot, String.toList_append, List.mem_append] at hc
    rcases hc with hold | hslash
    · exact ih c hold
    · obtain rfl : c = '/' := by simpa using hslash
      decide

theorem leads_blankRoot (n : Nat) : oneClassTree.Leads (blankRoot n) [] := by
  have hstart : oneClassTree.start (blankRoot n) = [] := by
    rw [FileTree.start]
    split <;> rfl
  have hdirectory : oneClassTree.root.kindAt? [] = some .directory := rfl
  rw [FileTree.Leads, hstart, segments_blankRoot]
  refine follow_cons_eq_ok.mpr ⟨hdirectory, fun hname => absurd hname (by decide), ?_⟩
  exact follow_blanks hdirectory fun segment hsegment => List.eq_of_mem_replicate hsegment

theorem mirrors_blankRoot {n : Nat} (hn : n < maxPathBytes) :
    Mirrors oneClassStore oneClassTree (blankRoot n) := by
  refine mirrors_oneClass (isDirectory_eq_true.mpr ⟨?_, [], leads_blankRoot n, rfl⟩)
    (leads_blankRoot n)
  have hsize := utf8ByteSize_blankRoot n
  refine checkPath_eq_ok.mpr ⟨blankRoot_no_zero n, by omega, ?_⟩
  rw [Ne, ← String.utf8ByteSize_eq_zero_iff]
  omega

/-- At a root with 4093 slashes the directory says nothing of the class file that it holds: the host
path of the file has 4101 bytes. -/
theorem list_leaves_out_path :
    Mirrors oneClassStore oneClassTree (blankRoot 4093) ∧
      ((access fileSystem (blankRoot 4093)).performAll [.list] oneClassTree).1 =
        [.ok (.paths [])] ∧
      (MemoryStore.access.performAll [.list] oneClassStore).1 = [.ok (.paths ["A.class"])] := by
  have hmirrors : Mirrors oneClassStore oneClassTree (blankRoot 4093) :=
    mirrors_blankRoot (by decide)
  have hpaths : oneClassStore.classPaths = ["A.class"] := by decide +kernel
  have hlong : hasHostPath (blankRoot 4093) "A.class" = false := by
    rw [hasHostPath, HostPath.join_eq _ (by decide), String.utf8ByteSize_append,
      String.utf8ByteSize_append, utf8ByteSize_blankRoot, decide_eq_false_iff_not]
    have hname : "A.class".utf8ByteSize = 7 := by decide
    rw [maxPathBytes, hname]
    omega
  refine ⟨hmirrors, ?_, ?_⟩
  · have hlist := hmirrors.list_eq
    rw [hpaths, List.filter_cons_of_neg (by rw [hlong]; exact Bool.false_ne_true),
      List.filter_nil] at hlist
    rw [ClassStore.performAll_cons, ClassStore.perform_list, hlist]
    rfl
  · have hlist : MemoryStore.access.list oneClassStore = (.ok ["A.class"], oneClassStore) := by
      change (Except.ok oneClassStore.classPaths, oneClassStore) = _
      rw [hpaths]
    rw [ClassStore.performAll_cons, ClassStore.perform_list, hlist]
    rfl

end DirectoryStore

end JvmRelocation
