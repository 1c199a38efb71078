import JvmRelocation.Proofs.Store.DirectoryAccess

/-!
# Listing a directory

A directory whose files are listed is walked name by name. What the walk finds below a place is told
by the names that lead there: the class files whose host paths a host takes. Paths get longer with
every name, so the walk comes to an end before its fuel does.
-/

namespace JvmRelocation

open FileNode FileTree

open Text.Json (joined)

namespace DirectoryStore

/-! ## Host paths below a root -/

/-- The host path of what the given names lead to below a root. -/
def hostBelow (root : String) (names : List String) : String :=
  names.foldl HostPath.join root

/-- Whether the root of a store is a directory of a well formed tree, and where. -/
structure RootAt (t : FileTree) (root : String) (base : List String) : Prop where
  wellFormed : t.root.WellFormed
  checked : checkPath root = .ok ()
  leads : t.Leads root base
  directory : t.root.kindAt? base = some .directory

variable {t : FileTree} {root : String} {base names : List String} {name : String}

theorem exists_rootAt (hwellFormed : t.root.WellFormed) (h : t.isDirectory root = true) :
    ∃ base, RootAt t root base := by
  obtain ⟨hcheck, base, hleads, hbase⟩ := isDirectory_eq_true.mp h
  exact ⟨base, hwellFormed, hcheck, hleads, hbase⟩

theorem RootAt.properNames (h : RootAt t root base)
    (hthere : (t.root.kindAt? (base ++ names)).isSome) : ∀ name ∈ names, ProperName name :=
  fun name hname => h.wellFormed.properNames hthere name (List.mem_append_right _ hname)

theorem hostBelow_concat (root : String) (names : List String) (name : String) :
    hostBelow root (names ++ [name]) = HostPath.join (hostBelow root names) name := by
  rw [hostBelow, List.foldl_append]
  rfl

theorem isPathName_joined (hne : names ≠ []) (h : ∀ name ∈ names, ProperName name) :
    segments (joined "/" names) = names ∧ isPathName (joined "/" names) = true := by
  have hsegments := segments_joined hne fun name hname => (h name hname).no_slash
  refine ⟨hsegments, isPathName_eq_true.mpr ?_⟩
  rw [hsegments]
  exact fun name hname => (h name hname).not_relative

theorem hostBelow_eq (hne : names ≠ []) (h : ∀ name ∈ names, ProperName name) :
    hostBelow root names = HostPath.join root (joined "/" names) :=
  HostPath.foldl_join root hne fun name hname =>
    ⟨ne_empty_of_not_relative (h name hname).not_relative, (h name hname).no_slash⟩

/-- A host path gets longer with every name. -/
theorem utf8ByteSize_lt_concat (root : String) (names : List String) (h : ProperName name) :
    (hostBelow root names).utf8ByteSize < (hostBelow root (names ++ [name])).utf8ByteSize := by
  have hpos : name.utf8ByteSize ≠ 0 := by
    rw [Ne, String.utf8ByteSize_eq_zero_iff]
    exact ne_empty_of_not_relative h.not_relative
  rw [hostBelow_concat, HostPath.join_eq _ (HostPath.isAbsolute_name h.no_slash),
    String.utf8ByteSize_append, String.utf8ByteSize_append]
  omega

theorem utf8ByteSize_le_append (root : String) (names : List String) {rest : List String}
    (h : ∀ name ∈ rest, ProperName name) :
    (hostBelow root names).utf8ByteSize ≤ (hostBelow root (names ++ rest)).utf8ByteSize := by
  induction rest generalizing names with
  | nil => exact Nat.le_of_eq (by rw [List.append_nil])
  | cons name rest ih =>
    obtain ⟨hname, hrest⟩ := List.forall_mem_cons.mp h
    rw [List.append_cons]
    exact Nat.le_trans (Nat.le_of_lt (utf8ByteSize_lt_concat root names hname)) (ih _ hrest)

/-- Names that a host allows bring no zero character into a path. -/
theorem hostBelow_no_zero {root : String} (hroot : ∀ c ∈ root.toList, c.toNat ≠ 0)
    (h : ∀ name ∈ names, ProperName name) : ∀ c ∈ (hostBelow root names).toList, c.toNat ≠ 0 := by
  induction names generalizing root with
  | nil => exact hroot
  | cons name rest ih =>
    obtain ⟨hname, hrest⟩ := List.forall_mem_cons.mp h
    have hjoined : ∀ c ∈ (HostPath.join root name).toList, c.toNat ≠ 0 := by
      intro c hc
      rw [HostPath.join_eq root (HostPath.isAbsolute_name hname.no_slash), String.toList_append,
        String.toList_append] at hc
      rcases List.mem_append.mp hc with hfront | hlast
      · rcases List.mem_append.mp hfront with hold | hseparator
        · exact hroot c hold
        · rw [HostPath.separator] at hseparator
          split at hseparator
          · simp at hseparator
          · obtain rfl : c = '/' := by simpa using hseparator
            decide
      · exact hname.no_zero c hlast
    exact ih hjoined hrest

/-- A host takes the path of what is below a root if it is short enough. -/
theorem RootAt.checkPath_hostBelow (h : RootAt t root base)
    (hthere : (t.root.kindAt? (base ++ names)).isSome) :
    checkPath (hostBelow root names) = .ok () ↔
      (hostBelow root names).utf8ByteSize ≤ maxPathBytes := by
  have hnames := h.properNames hthere
  obtain ⟨hzero, -, hempty⟩ := checkPath_eq_ok.mp h.checked
  have hlonger : root.utf8ByteSize ≤ (hostBelow root names).utf8ByteSize :=
    utf8ByteSize_le_append root [] hnames
  have hroot : root.utf8ByteSize ≠ 0 := by rwa [Ne, String.utf8ByteSize_eq_zero_iff]
  have hsome : hostBelow root names ≠ "" := by
    rw [Ne, ← String.utf8ByteSize_eq_zero_iff]
    omega
  rw [checkPath_eq_ok]
  exact ⟨fun h => h.2.1, fun hshort => ⟨hostBelow_no_zero hzero hnames, hshort, hsome⟩⟩

theorem RootAt.leads_hostBelow (h : RootAt t root base)
    (hthere : (t.root.kindAt? (base ++ names)).isSome) :
    t.Leads (hostBelow root names) (base ++ names) := by
  by_cases hnil : names = []
  · subst hnil
    rw [List.append_nil]
    exact h.leads
  · have hnames := h.properNames hthere
    obtain ⟨hsegments, hpath⟩ := isPathName_joined hnil hnames
    rw [hostBelow_eq hnil hnames]
    have hleads := leads_join h.leads hpath
    rw [hsegments] at hleads
    exact hleads (fun name hname => (hnames name hname).short) hthere

theorem RootAt.isDirectory_hostBelow (h : RootAt t root base)
    (hthere : (t.root.kindAt? (base ++ names)).isSome) :
    t.isDirectory (hostBelow root names) = true ↔
      (hostBelow root names).utf8ByteSize ≤ maxPathBytes ∧
        t.root.kindAt? (base ++ names) = some .directory := by
  rw [isDirectory_eq_true, h.checkPath_hostBelow hthere]
  have hleads := h.leads_hostBelow hthere
  constructor
  · rintro ⟨hshort, place, hplace, hkind⟩
    rw [← hplace.unique hleads]
    exact ⟨hshort, hkind⟩
  · rintro ⟨hshort, hkind⟩
    exact ⟨hshort, _, hleads, hkind⟩

theorem RootAt.isFile_hostBelow (h : RootAt t root base)
    (hthere : (t.root.kindAt? (base ++ names)).isSome) :
    t.isFile (hostBelow root names) = true ↔
      (hostBelow root names).utf8ByteSize ≤ maxPathBytes ∧
        ∃ content, t.root.kindAt? (base ++ names) = some (.file content) := by
  rw [isFile_eq_true, h.checkPath_hostBelow hthere]
  have hleads := h.leads_hostBelow hthere
  constructor
  · rintro ⟨hshort, place, content, hplace, hkind⟩
    rw [← hplace.unique hleads]
    exact ⟨hshort, content, hkind⟩
  · rintro ⟨hshort, content, hkind⟩
    exact ⟨hshort, _, content, hleads, hkind⟩

/-! ## The walk -/

/-- Whether a path is that of a class file that the given names lead to, or what is below them, and
whose host path a host takes. -/
def ListedBelow (t : FileTree) (root : String) (base names : List String) (path : String) : Prop :=
  ∃ rest, path = joined "/" (names ++ rest) ∧
    (∃ content, t.root.kindAt? (base ++ (names ++ rest)) = some (.file content)) ∧
    isClassPath path = true ∧ (hostBelow root (names ++ rest)).utf8ByteSize ≤ maxPathBytes

/-- Whether paths are those of the class files below the given names, each once. -/
structure ListsBelow (t : FileTree) (root : String) (base names : List String)
    (paths : List String) : Prop where
  nodup : paths.Nodup
  mem_iff : ∀ path, path ∈ paths ↔ ListedBelow t root base names path

theorem RootAt.names_of_listedBelow (h : RootAt t root base) {path : String}
    (hpath : ListedBelow t root base names path) :
    ∃ rest, path = joined "/" (names ++ rest) ∧ ∀ name ∈ names ++ rest, ProperName name := by
  obtain ⟨rest, hjoined, ⟨content, hfile⟩, -⟩ := hpath
  exact ⟨rest, hjoined, h.properNames (by rw [hfile]; rfl)⟩

/-- What is listed below a directory is listed below one of its entries. -/
theorem listedBelow_iff {entries : List (String × FileNode)}
    (hentries : t.root.find? (base ++ names) = some (.directory entries)) {path : String} :
    ListedBelow t root base names path ↔
      ∃ name ∈ entries.map (·.1), ListedBelow t root base (names ++ [name]) path := by
  constructor
  · rintro ⟨rest, hpath, ⟨content, hfile⟩, hlisted⟩
    cases rest with
    | nil =>
      rw [List.append_nil, kindAt?, hentries] at hfile
      cases hfile
    | cons name rest =>
      refine ⟨name, ?_, rest, ?_⟩
      · rw [← List.append_assoc, kindAt?_append hentries, kindAt?_cons] at hfile
        obtain ⟨next, hnext, -⟩ := Option.bind_eq_some_iff.mp hfile
        rw [mem_names, hnext]
        rfl
      · rw [← List.append_cons]
        exact ⟨hpath, ⟨content, hfile⟩, hlisted⟩
  · rintro ⟨name, -, rest, hlisted⟩
    rw [← List.append_cons] at hlisted
    exact ⟨name :: rest, hlisted⟩

/-- A path is listed below one entry of a directory only. -/
theorem RootAt.name_unique (h : RootAt t root base) {name' path : String}
    (hname : ListedBelow t root base (names ++ [name]) path)
    (hname' : ListedBelow t root base (names ++ [name']) path) : name = name' := by
  obtain ⟨rest, hpath, hproper⟩ := h.names_of_listedBelow hname
  obtain ⟨rest', hpath', hproper'⟩ := h.names_of_listedBelow hname'
  have hsegments := segments_joined (by simp) fun name hname => (hproper name hname).no_slash
  have hsegments' := segments_joined (by simp) fun name hname => (hproper' name hname).no_slash
  rw [← hpath] at hsegments
  rw [← hpath', hsegments, ← List.append_cons, ← List.append_cons] at hsegments'
  exact (List.cons.inj (List.append_cancel_left hsegments')).1

/-- The path of an entry is that of its directory with the name behind it. -/
theorem joined_concat (h : ∀ name ∈ names, ProperName name) (name : String) :
    (if joined "/" names = "" then name else joined "/" names ++ "/" ++ name) =
      joined "/" (names ++ [name]) := by
  by_cases hnil : names = []
  · subst hnil
    rfl
  · rw [if_neg, joined_append "/" hnil (List.cons_ne_nil name [])]
    · rfl
    · intro hempty
      obtain ⟨hsegments, hpath⟩ := isPathName_joined hnil h
      rw [hempty] at hpath
      cases hpath

/-- What is listed at a place that is no directory for the host: its file, if that is a class file. -/
theorem RootAt.listsBelow_of_not_directory (h : RootAt t root base)
    (hthere : (t.root.kindAt? (base ++ names)).isSome)
    (hdirectory : t.isDirectory (hostBelow root names) = false) :
    ListsBelow t root base names
      (if t.isFile (hostBelow root names) && isClassPath (joined "/" names) then
        [joined "/" names] else []) := by
  have hlisted (path : String) : ListedBelow t root base names path ↔
      (t.isFile (hostBelow root names) && isClassPath (joined "/" names)) = true ∧
        path = joined "/" names := by
    rw [Bool.and_eq_true, h.isFile_hostBelow hthere]
    constructor
    · intro hpath
      obtain ⟨rest, rfl, ⟨content, hfile⟩, hclass, hshort⟩ := hpath
      cases rest with
      | nil =>
        rw [List.append_nil] at hfile hclass hshort ⊢
        exact ⟨⟨⟨hshort, content, hfile⟩, hclass⟩, rfl⟩
      | cons name rest =>
        -- the host would take the path of the directory as well, which is shorter
        have hsome : (t.root.kindAt? (base ++ (names ++ name :: rest))).isSome := by
          rw [hfile]
          rfl
        have hshorter := utf8ByteSize_le_append root names fun name hname =>
          h.properNames hsome name (List.mem_append_right _ hname)
        rw [← List.append_assoc] at hsome
        have hkind := kindAt?_of_append (List.cons_ne_nil name rest) hsome
        have hthrough := (h.isDirectory_hostBelow hthere).mpr ⟨Nat.le_trans hshorter hshort, hkind⟩
        rw [hdirectory] at hthrough
        cases hthrough
    · rintro ⟨⟨⟨hshort, content, hfile⟩, hclass⟩, rfl⟩
      refine ⟨[], ?_⟩
      rw [List.append_nil]
      exact ⟨rfl, ⟨content, hfile⟩, hclass, hshort⟩
  split
  case isTrue hclass => exact ⟨by simp, fun path => by rw [hlisted, List.mem_singleton]; simp [hclass]⟩
  case isFalse hclass => exact ⟨List.nodup_nil, fun path => by rw [hlisted]; simp [hclass]⟩

variable (walk : String → String → StateM FileTree (Except IoError (List String)))

/-- The walk through the entries of a directory goes from one to the next. -/
theorem walkEntries_cons {directory inside relative : String} {rest found more : List String}
    (hrelative : (if inside = "" then name else inside ++ "/" ++ name) = relative)
    (hhere : (if t.isDirectory (HostPath.join directory name) then
        walk (HostPath.join directory name) relative t
      else (.ok (if t.isFile (HostPath.join directory name) && isClassPath relative then
        [relative] else []), t)) = (.ok found, t))
    (hrest : walkEntries fileSystem walk directory inside rest t = (.ok more, t)) :
    walkEntries fileSystem walk directory inside (name :: rest) t = (.ok (found ++ more), t) := by
  have hisDirectory (path : String) : fileSystem.isDirectory path t = (t.isDirectory path, t) := rfl
  have hisFile (path : String) : fileSystem.isFile path t = (t.isFile path, t) := rfl
  rw [walkEntries]
  simp only [hrelative, bind, StateT.bind, hisDirectory, hisFile]
  split
  case isTrue hdirectory =>
    rw [if_pos hdirectory] at hhere
    simp only [StateT.bind, bind, hhere, hrest]
    rfl
  case isFalse hdirectory =>
    rw [if_neg hdirectory] at hhere
    obtain rfl := Except.ok.inj (congrArg Prod.fst hhere)
    have hpure (here : Except IoError (List String)) :
        (pure here : StateM FileTree _) t = (here, t) := rfl
    split <;> simp only [StateT.bind, bind, hpure, hrest]

theorem walkEntries_eq (h : RootAt t root base) (hnames : ∀ name ∈ names, ProperName name)
    {entries : List String}
    (hentries : ∀ name ∈ entries, (t.root.kindAt? (base ++ (names ++ [name]))).isSome)
    (hnodup : entries.Nodup)
    (hwalk : ∀ name ∈ entries, t.isDirectory (hostBelow root (names ++ [name])) = true →
      ∃ found, walk (hostBelow root (names ++ [name])) (joined "/" (names ++ [name])) t =
        (.ok found, t) ∧ ListsBelow t root base (names ++ [name]) found) :
    ∃ found, walkEntries fileSystem walk (hostBelow root names) (joined "/" names) entries t =
      (.ok found, t) ∧ found.Nodup ∧
        ∀ path, path ∈ found ↔ ∃ name ∈ entries, ListedBelow t root base (names ++ [name]) path := by
  induction entries with
  | nil => exact ⟨[], rfl, List.nodup_nil, by simp⟩
  | cons name rest ih =>
    obtain ⟨hthere, hothers⟩ := List.forall_mem_cons.mp hentries
    obtain ⟨hnew, hdistinct⟩ := List.nodup_cons.mp hnodup
    obtain ⟨hfirst, hlater⟩ := List.forall_mem_cons.mp hwalk
    obtain ⟨more, hmore, hmorenodup, hmoremem⟩ := ih hothers hdistinct hlater
    obtain ⟨found, hfound, hlists⟩ : ∃ found,
        (if t.isDirectory (hostBelow root (names ++ [name])) then
          walk (hostBelow root (names ++ [name])) (joined "/" (names ++ [name])) t
        else (.ok (if t.isFile (hostBelow root (names ++ [name])) &&
            isClassPath (joined "/" (names ++ [name])) then
          [joined "/" (names ++ [name])] else []), t)) = (.ok found, t) ∧
        ListsBelow t root base (names ++ [name]) found := by
      cases hdirectory : t.isDirectory (hostBelow root (names ++ [name])) with
      | true =>
        rw [if_pos rfl]
        exact hfirst hdirectory
      | false => exact ⟨_, rfl, h.listsBelow_of_not_directory hthere hdirectory⟩
    refine ⟨found ++ more, ?_, ?_, fun path => ?_⟩
    · refine walkEntries_cons walk (joined_concat hnames name) ?_ hmore
      rwa [← hostBelow_concat]
    · refine List.nodup_append.mpr ⟨hlists.nodup, hmorenodup, fun path hpath path' hpath' => ?_⟩
      rintro rfl
      obtain ⟨other, hother, hlisted⟩ := (hmoremem path).mp hpath'
      have hsame := h.name_unique ((hlists.mem_iff path).mp hpath) hlisted
      exact hnew (hsame ▸ hother)
    · rw [List.mem_append, hlists.mem_iff, hmoremem]
      simp only [List.mem_cons, exists_eq_or_imp]

/-- **The walk below a directory finds the class files below it.** By induction on the fuel, which is
more than what is left of the longest path. -/
theorem walk_eq (h : RootAt t root base) (fuel : Nat) (names : List String)
    (hfuel : maxPathBytes < (hostBelow root names).utf8ByteSize + fuel)
    (hthere : (t.root.kindAt? (base ++ names)).isSome)
    (hdirectory : t.isDirectory (hostBelow root names) = true) :
    ∃ found, DirectoryStore.walk fileSystem fuel (hostBelow root names) (joined "/" names) t =
      (.ok found, t) ∧ ListsBelow t root base names found := by
  obtain ⟨hshort, hkind⟩ := (h.isDirectory_hostBelow hthere).mp hdirectory
  induction fuel generalizing names with
  | zero => omega
  | succ fuel ih =>
    obtain ⟨entries, hentries⟩ := kindAt?_eq_directory.mp hkind
    obtain ⟨hsorted, hproper⟩ := h.wellFormed _ _ hentries
    have hlist : t.entries (hostBelow root names) = .ok (entries.map (·.1)) :=
      entries_eq_ok.mpr ⟨(h.checkPath_hostBelow hthere).mpr hshort, _, entries,
        h.leads_hostBelow hthere, hentries, rfl⟩
    have hstep (name : String) (hname : name ∈ entries.map (·.1)) :
        ProperName name ∧ (t.root.kindAt? (base ++ (names ++ [name]))).isSome := by
      obtain ⟨entry, hentry, rfl⟩ := List.mem_map.mp hname
      refine ⟨hproper entry hentry, ?_⟩
      rw [← List.append_assoc, kindAt?_append hentries, kindAt?_cons]
      obtain ⟨next, hnext⟩ := Option.isSome_iff_exists.mp (mem_names.mp hname)
      rw [hnext]
      rfl
    have hinside (name : String) (hname : name ∈ entries.map (·.1))
        (hinner : t.isDirectory (hostBelow root (names ++ [name])) = true) :
        ∃ found, DirectoryStore.walk fileSystem fuel (hostBelow root (names ++ [name]))
          (joined "/" (names ++ [name])) t = (.ok found, t) ∧
            ListsBelow t root base (names ++ [name]) found := by
      obtain ⟨hname, hsome⟩ := hstep name hname
      have hlonger := utf8ByteSize_lt_concat root names hname
      obtain ⟨hinnerShort, hinnerKind⟩ := (h.isDirectory_hostBelow hsome).mp hinner
      exact ih (names ++ [name]) (by omega) hsome hinner hinnerShort hinnerKind
    obtain ⟨found, hfound, hnodup, hmem⟩ := walkEntries_eq (DirectoryStore.walk fileSystem fuel) h
      (h.properNames hthere) (fun name hname => (hstep name hname).2)
      (hsorted.imp fun hless => String.ne_of_lt hless) hinside
    refine ⟨found, ?_, hnodup, fun path => ?_⟩
    · rw [DirectoryStore.walk]
      have hcall : fileSystem.entries (hostBelow root names) t = (.ok (entries.map (·.1)), t) := by
        change query (·.entries (hostBelow root names)) t = _
        rw [query, hlist]
      simp only [bind, StateT.bind, hcall]
      exact hfound
    · rw [hmem, listedBelow_iff hentries]

/-- Sorting paths that differ puts them in strict order. -/
theorem sorted_of_nodup {paths : List String} (h : paths.Nodup) :
    (sorted paths).Pairwise (· < ·) := by
  have hle : (sorted paths).Pairwise fun a b => (!decide (b < a)) = true := by
    refine List.pairwise_mergeSort (fun a b c hab hbc => ?_) (fun a b => ?_) paths
    · simp only [Bool.not_eq_true', decide_eq_false_iff_not, String.not_lt] at hab hbc ⊢
      exact String.le_trans hab hbc
    · simp only [Bool.or_eq_true, Bool.not_eq_true', decide_eq_false_iff_not, String.not_lt]
      exact String.le_total a b
  have hne : (sorted paths).Nodup := (List.mergeSort_perm paths _).nodup_iff.mpr h
  refine hle.imp₂ (fun a b hab hdistinct => ?_) hne
  simp only [Bool.not_eq_true', decide_eq_false_iff_not] at hab
  exact Std.lt_of_le_of_ne hab hdistinct

/-- **Listing a store whose root is a directory** succeeds and changes nothing. It gives the class files
below the root whose host paths a host takes, each once and in order. -/
theorem list_fileTree (h : RootAt t root base) :
    ∃ paths, (access fileSystem root).list t = (.ok paths, t) ∧
      ListsBelow t root base [] paths ∧ paths.Pairwise (· < ·) := by
  have hthere : (t.root.kindAt? (base ++ [])).isSome := by
    rw [List.append_nil, h.directory]
    rfl
  have hshort := (checkPath_eq_ok.mp h.checked).2.1
  have hdirectory : t.isDirectory (hostBelow root []) = true := by
    rw [h.isDirectory_hostBelow hthere, List.append_nil]
    exact ⟨hshort, h.directory⟩
  have hfuel : maxPathBytes < (hostBelow root []).utf8ByteSize + maxDepth := by
    rw [maxDepth, maxPathBytes]
    omega
  obtain ⟨found, hfound, hlists⟩ := walk_eq h maxDepth [] hfuel hthere hdirectory
  have hperm : (sorted found).Perm found := List.mergeSort_perm found _
  refine ⟨sorted found, ?_, ⟨hperm.nodup_iff.mpr hlists.nodup, fun path => ?_⟩,
    sorted_of_nodup hlists.nodup⟩
  · have hwalk : DirectoryStore.walk fileSystem maxDepth root "" t = (.ok found, t) := hfound
    unfold access
    simp only [bind, StateT.bind, hwalk]
    rfl
  · rw [hperm.mem_iff, hlists.mem_iff]

/-! ## What a listing gives -/

/-- Whether a host takes the path of a file below a root. -/
def hasHostPath (root path : String) : Bool :=
  (HostPath.join root path).utf8ByteSize ≤ maxPathBytes

/-- What is listed below a root are the class files there whose host paths a host takes. -/
theorem RootAt.listedBelow_root (h : RootAt t root base) :
    ListedBelow t root base [] path ↔
      (∃ content, t.root.kindAt? (base ++ segments path) = some (.file content)) ∧
        isClassPath path = true ∧ hasHostPath root path = true := by
  have hhost {names : List String} {content : Bytes}
      (hfile : t.root.kindAt? (base ++ names) = some (.file content)) :
      segments (joined "/" names) = names ∧
        hostBelow root names = HostPath.join root (joined "/" names) := by
    have hne : names ≠ [] := by
      rintro rfl
      rw [List.append_nil, h.directory] at hfile
      cases hfile
    have hnames := h.properNames (by rw [hfile]; rfl)
    exact ⟨(isPathName_joined hne hnames).1, hostBelow_eq hne hnames⟩
  rw [hasHostPath, decide_eq_true_eq]
  constructor
  · rintro ⟨rest, rfl, ⟨content, hfile⟩, hclass, hshort⟩
    rw [List.nil_append] at hfile hclass hshort ⊢
    obtain ⟨hsegments, hbelow⟩ := hhost hfile
    rw [hsegments, ← hbelow]
    exact ⟨⟨content, hfile⟩, hclass, hshort⟩
  · rintro ⟨⟨content, hfile⟩, hclass, hshort⟩
    have hbelow := (hhost hfile).2
    rw [joined_segments] at hbelow
    refine ⟨segments path, ?_⟩
    rw [List.nil_append, joined_segments, hbelow]
    exact ⟨rfl, ⟨content, hfile⟩, hclass, hshort⟩

/-- The root of a store that can be listed is a directory. -/
theorem isDirectory_of_list {paths : List String}
    (h : ((access fileSystem root).list t).1 = .ok paths) : t.isDirectory root = true := by
  cases hentries : t.entries root with
  | ok names =>
    obtain ⟨hcheck, place, entries, hleads, hplace, -⟩ := entries_eq_ok.mp hentries
    exact isDirectory_eq_true.mpr ⟨hcheck, place, hleads, kindAt?_eq_directory.mpr ⟨entries, hplace⟩⟩
  | error fault =>
    have hcall : fileSystem.entries root t = (.error fault.toIoError, t) := by
      change query (·.entries root) t = _
      rw [query, hentries]
    have hwalk : DirectoryStore.walk fileSystem maxDepth root "" t =
        (withPath root (.error fault.toIoError), t) := by
      rw [maxDepth, DirectoryStore.walk]
      simp only [bind, StateT.bind, hcall]
      rfl
    unfold access at h
    simp only [bind, StateT.bind, hwalk] at h
    cases h

/-- Every path of a listing consists of proper names. -/
theorem isPathName_of_mem_list (hwellFormed : t.root.WellFormed) {paths : List String}
    (h : ((access fileSystem root).list t).1 = .ok paths) {path : String} (hpath : path ∈ paths) :
    isPathName path = true := by
  obtain ⟨base, hroot⟩ := exists_rootAt hwellFormed (isDirectory_of_list h)
  obtain ⟨paths', hlist, hlists, -⟩ := list_fileTree hroot
  rw [hlist] at h
  obtain rfl := Except.ok.inj h
  obtain ⟨⟨content, hfile⟩, -⟩ := hroot.listedBelow_root.mp ((hlists.mem_iff path).mp hpath)
  have hnames := hroot.properNames (by rw [hfile]; rfl)
  exact isPathName_eq_true.mpr fun name hname => (hnames name hname).not_relative

/-! ## Listing changes nothing -/

/-- Whether a computation leaves every tree as it is. -/
def Keeps {α : Type} (action : StateM FileTree α) : Prop :=
  ∀ t, (action t).2 = t

theorem Keeps.pure {α : Type} (a : α) : Keeps (Pure.pure a) := fun _ => rfl

theorem Keeps.bind {α β : Type} {action : StateM FileTree α} {next : α → StateM FileTree β}
    (h : Keeps action) (hnext : ∀ a, Keeps (next a)) : Keeps (action >>= next) :=
  fun t => (hnext (action t).1 (action t).2).trans (h t)

theorem keeps_walkEntries (hwalk : ∀ directory inside, Keeps (walk directory inside))
    (directory inside : String) (entries : List String) :
    Keeps (walkEntries fileSystem walk directory inside entries) := by
  induction entries with
  | nil => exact .pure _
  | cons name rest ih =>
    rw [walkEntries]
    refine .bind (fun _ => rfl) fun isDirectory => .bind (fun _ => rfl) fun isFile => ?_
    dsimp only
    generalize (if inside = "" then name else inside ++ "/" ++ name) = relative
    split
    case' isTrue => refine (hwalk _ relative).bind ?_
    case' isFalse =>
      split
      case' isTrue => refine (Keeps.pure _).bind ?_
      case' isFalse => refine (Keeps.pure _).bind ?_
    -- whatever was found under the name, the walk goes on with the rest
    all_goals
      rintro (e | found)
      · exact .pure _
      · refine ih.bind ?_
        rintro (e | more)
        · exact .pure _
        · exact .pure _

theorem keeps_walk (fuel : Nat) (directory inside : String) :
    Keeps (DirectoryStore.walk fileSystem fuel directory inside) := by
  induction fuel generalizing directory inside with
  | zero => exact .pure _
  | succ fuel ih =>
    rw [DirectoryStore.walk]
    refine .bind (fun _ => rfl) fun listed => ?_
    cases withPath directory listed with
    | error e => exact .pure _
    | ok entries => exact keeps_walkEntries _ ih directory inside entries

/-- Listing leaves every tree as it is, also when it fails. -/
theorem keeps_list (root : String) : Keeps (access fileSystem root).list := by
  refine (keeps_walk maxDepth root "").bind ?_
  rintro (e | found)
  · exact .pure _
  · exact .pure _

/-- A tree with a single class file, in the working directory. -/
def oneClassTree : FileTree :=
  ⟨emptyDirectory.put (.file [1]) ["A.class"], []⟩

theorem wellFormed_oneClassTree : oneClassTree.root.WellFormed := by
  refine wellFormed_emptyDirectory.put (wellFormed_file [1]) ?_
  rintro name hname
  obtain rfl := List.mem_singleton.mp hname
  have hzero : ("A.class".toList.all fun c => c.toNat ≠ 0) = true := by decide
  exact ⟨by decide, by decide, fun c hc => of_decide_eq_true (List.all_eq_true.mp hzero c hc),
    by decide⟩

end DirectoryStore

end JvmRelocation
