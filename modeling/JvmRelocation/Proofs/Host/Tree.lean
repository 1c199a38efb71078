import JvmRelocation.Host.FileTree

/-!
# Trees of files, place by place

A tree is told by what its places hold: a directory, a file with its content, or nothing. Putting a
file or an empty directory into a directory that is there changes a single place. So a change to a
tree never has to be followed through its entries again.

A tree is well formed if its directories list names that a host allows, each once and in order. Putting
well formed nodes under such names keeps it so.
-/

namespace JvmRelocation

/-- What a place of a tree holds. -/
inductive FileKind where
  | directory
  | file (content : Bytes)
deriving DecidableEq, Repr

namespace FileNode

/-- Whether a node is a directory or a file, and which. -/
def kind : FileNode → FileKind
  | file content => .file content
  | directory _ => .directory

/-- What a place below a node holds, if it holds anything. -/
def kindAt? (node : FileNode) (place : List String) : Option FileKind :=
  (node.find? place).map kind

/-- A node below which there is nothing. -/
def IsLeaf (node : FileNode) : Prop :=
  ∀ name, node.child? name = none

theorem isLeaf_file (content : Bytes) : (file content).IsLeaf := fun _ => rfl

theorem isLeaf_emptyDirectory : emptyDirectory.IsLeaf := fun _ => rfl

@[simp] theorem find?_nil (node : FileNode) : node.find? [] = some node := by
  rw [find?]

theorem find?_cons (node : FileNode) (name : String) (rest : List String) :
    node.find? (name :: rest) = (node.child? name).bind fun next => next.find? rest := by
  rw [find?]
  cases node.child? name <;> rfl

theorem find?_append (node : FileNode) (place rest : List String) :
    node.find? (place ++ rest) = (node.find? place).bind fun next => next.find? rest := by
  induction place generalizing node with
  | nil => rfl
  | cons name place ih =>
    rw [List.cons_append, find?_cons, find?_cons, Option.bind_assoc]
    congr 1
    funext next
    exact ih next

@[simp] theorem kindAt?_nil (node : FileNode) : node.kindAt? [] = some node.kind := by
  rw [kindAt?, find?_nil, Option.map_some]

theorem kindAt?_cons (node : FileNode) (name : String) (rest : List String) :
    node.kindAt? (name :: rest) = (node.child? name).bind fun next => next.kindAt? rest := by
  rw [kindAt?, find?_cons, Option.map_bind]
  rfl

theorem kindAt?_append {node next : FileNode} {place : List String}
    (h : node.find? place = some next) (rest : List String) :
    node.kindAt? (place ++ rest) = next.kindAt? rest := by
  rw [kindAt?, find?_append, h, Option.bind_some]
  rfl

theorem IsLeaf.kindAt?_cons {node : FileNode} (h : node.IsLeaf) (name : String)
    (rest : List String) : node.kindAt? (name :: rest) = none := by
  rw [FileNode.kindAt?_cons, h name, Option.bind_none]

/-- Directories are the nodes whose kind says so. -/
theorem kindAt?_eq_directory {node : FileNode} {place : List String} :
    node.kindAt? place = some .directory ↔ ∃ entries, node.find? place = some (directory entries) := by
  rw [kindAt?, Option.map_eq_some_iff]
  constructor
  · rintro ⟨next, hnext, hkind⟩
    cases next with
    | file content => cases hkind
    | directory entries => exact ⟨entries, hnext⟩
  · rintro ⟨entries, hentries⟩
    exact ⟨_, hentries, rfl⟩

theorem kindAt?_eq_file {node : FileNode} {place : List String} {content : Bytes} :
    node.kindAt? place = some (.file content) ↔ node.find? place = some (file content) := by
  rw [kindAt?, Option.map_eq_some_iff]
  constructor
  · rintro ⟨next, hnext, hkind⟩
    cases next with
    | file content' =>
      cases hkind
      exact hnext
    | directory entries => cases hkind
  · intro h
    exact ⟨_, h, rfl⟩

/-- Whatever holds something stands in directories. -/
theorem kindAt?_of_append {node : FileNode} {place rest : List String} (hrest : rest ≠ [])
    (h : (node.kindAt? (place ++ rest)).isSome) : node.kindAt? place = some .directory := by
  rw [kindAt?, Option.isSome_map, find?_append] at h
  cases hnext : node.find? place with
  | none =>
    rw [hnext] at h
    cases h
  | some next =>
    cases next with
    | directory entries => exact kindAt?_eq_directory.mpr ⟨entries, hnext⟩
    | file content =>
      cases rest with
      | nil => exact absurd rfl hrest
      | cons name rest =>
        rw [hnext] at h
        cases h

/-! ## Putting a node into a tree -/

/-- The entries of a directory are looked through in order. -/
theorem child?_cons (entry : String × FileNode) (rest : List (String × FileNode)) (name : String) :
    (directory (entry :: rest)).child? name =
      if entry.1 = name then some entry.2 else (directory rest).child? name := by
  rw [child?, child?, List.find?_cons]
  by_cases heq : entry.1 = name <;> simp [heq]

/-- A set entry is found under its name, and other names lead where they did. -/
theorem child?_setEntry (name other : String) (new : FileNode) (entries : List (String × FileNode)) :
    (directory (setEntry name new entries)).child? other =
      if other = name then some new else (directory entries).child? other := by
  induction entries with
  | nil =>
    rw [setEntry, child?_cons]
    simp only [eq_comm]
  | cons entry rest ih =>
    rw [setEntry]
    split
    case isTrue hname =>
      rw [child?_cons, child?_cons]
      by_cases hother : other = name
      · simp [hother]
      · simp [hother, Ne.symm hother, hname]
    case isFalse hname =>
      split
      case isTrue hless =>
        rw [child?_cons]
        simp only [eq_comm]
      case isFalse hless =>
        rw [child?_cons, child?_cons, ih]
        by_cases hother : other = name
        · simp [hother, hname]
        · simp [hother]

/-- **Putting a leaf into a directory changes what one place holds.** What was there is no directory,
so nothing below it is lost. -/
theorem kindAt?_put {node new : FileNode} (hnew : new.IsLeaf) {parent : List String} {name : String}
    (hparent : node.kindAt? parent = some .directory)
    (hplace : node.kindAt? (parent ++ [name]) ≠ some .directory) (place : List String) :
    (node.put new (parent ++ [name])).kindAt? place =
      if place = parent ++ [name] then some new.kind else node.kindAt? place := by
  induction parent generalizing node place with
  | nil =>
    obtain ⟨entries, hentries⟩ := kindAt?_eq_directory.mp hparent
    obtain rfl := Option.some.inj hentries
    rw [List.nil_append, put, put]
    cases place with
    | nil => rfl
    | cons first rest =>
      rw [kindAt?_cons, child?_setEntry, kindAt?_cons]
      by_cases hfirst : first = name
      · subst hfirst
        rw [if_pos rfl, Option.bind_some]
        cases rest with
        | nil => rw [if_pos rfl, kindAt?_nil]
        | cons second rest =>
          rw [if_neg (by simp), hnew.kindAt?_cons]
          -- what the name led to is no directory, so it leads no further
          cases hold : (directory entries).child? first with
          | none => rfl
          | some next =>
            cases next with
            | file content => rfl
            | directory below =>
              refine absurd ?_ hplace
              rw [List.nil_append, kindAt?_cons, hold]
              rfl
      · rw [if_neg hfirst, if_neg (by simp [hfirst])]
  | cons first parent ih =>
    cases node with
    | file content =>
      rw [kindAt?_cons] at hparent
      cases hparent
    | directory entries =>
      rw [kindAt?_cons] at hparent
      obtain ⟨next, hnext, hbelow⟩ := Option.bind_eq_some_iff.mp hparent
      rw [List.cons_append, kindAt?_cons, hnext, Option.bind_some] at hplace
      rw [List.cons_append, put, hnext, Option.getD_some]
      cases place with
      | nil => rfl
      | cons other rest =>
        rw [kindAt?_cons, child?_setEntry, kindAt?_cons]
        by_cases hother : other = first
        · subst hother
          rw [if_pos rfl, Option.bind_some, ih hbelow hplace, hnext, Option.bind_some]
          simp
        · rw [if_neg hother, if_neg (by simp [hother])]

/-! ## Well formed trees -/

/-- The names a host allows for entries of a directory. -/
structure ProperName (name : String) : Prop where
  not_relative : isRelativeSegment name = false
  no_slash : '/' ∉ name.toList
  no_zero : ∀ c ∈ name.toList, c.toNat ≠ 0
  short : name.utf8ByteSize ≤ FileTree.maxNameBytes

/-- Every directory lists names that a host allows, in order. -/
def WellFormed (node : FileNode) : Prop :=
  ∀ place entries, node.find? place = some (directory entries) →
    (entries.map (·.1)).Pairwise (· < ·) ∧ ∀ entry ∈ entries, ProperName entry.1

theorem wellFormed_file (content : Bytes) : (file content).WellFormed := by
  intro place entries h
  cases place with
  | nil => cases h
  | cons name rest => cases h

theorem wellFormed_emptyDirectory : emptyDirectory.WellFormed := by
  intro place entries h
  cases place with
  | nil =>
    obtain rfl := (directory.inj (Option.some.inj h)).symm
    exact ⟨.nil, by simp⟩
  | cons name rest => cases h

/-- What a well formed tree leads to is well formed. -/
theorem WellFormed.of_find? {node next : FileNode} (h : node.WellFormed) {front : List String}
    (hnext : node.find? front = some next) : next.WellFormed := by
  intro place entries hplace
  refine h (front ++ place) entries ?_
  rw [find?_append, hnext, Option.bind_some, hplace]

theorem WellFormed.child {node next : FileNode} (h : node.WellFormed) {name : String}
    (hnext : node.child? name = some next) : next.WellFormed := by
  have hfound : node.find? [name] = some next := by
    rw [find?_cons, hnext, Option.bind_some, find?_nil]
  exact h.of_find? hfound

theorem wellFormed_directory {entries : List (String × FileNode)}
    (hsorted : (entries.map (·.1)).Pairwise (· < ·)) (hnames : ∀ entry ∈ entries, ProperName entry.1)
    (hbelow : ∀ name next, (directory entries).child? name = some next → next.WellFormed) :
    (directory entries).WellFormed := by
  intro place entries' h
  cases place with
  | nil =>
    obtain rfl := directory.inj (Option.some.inj h)
    exact ⟨hsorted, hnames⟩
  | cons name rest =>
    rw [find?_cons] at h
    obtain ⟨next, hnext, hrest⟩ := Option.bind_eq_some_iff.mp h
    exact hbelow name next hnext rest entries' hrest

theorem mem_setEntry {name : String} {new : FileNode} {entries : List (String × FileNode)}
    {entry : String × FileNode} (h : entry ∈ setEntry name new entries) :
    entry = (name, new) ∨ entry ∈ entries := by
  induction entries with
  | nil => exact .inl (List.mem_singleton.mp h)
  | cons first rest ih =>
    rw [setEntry] at h
    split at h
    · rcases List.mem_cons.mp h with hnew | hrest
      · exact .inl hnew
      · exact .inr (List.mem_cons_of_mem _ hrest)
    · split at h
      · exact List.mem_cons.mp h
      · rcases List.mem_cons.mp h with hfirst | hrest
        · exact .inr (List.mem_cons.mpr (.inl hfirst))
        · exact (ih hrest).imp_right (List.mem_cons_of_mem _)

theorem sorted_setEntry {name : String} {new : FileNode} {entries : List (String × FileNode)}
    (h : (entries.map (·.1)).Pairwise (· < ·)) :
    ((setEntry name new entries).map (·.1)).Pairwise (· < ·) := by
  induction entries with
  | nil => exact List.pairwise_singleton _ _
  | cons first rest ih =>
    rw [List.map_cons, List.pairwise_cons] at h
    rw [setEntry]
    split
    case isTrue hname =>
      rw [List.map_cons, ← hname, List.pairwise_cons]
      exact h
    case isFalse hname =>
      split
      case isTrue hless =>
        rw [List.map_cons, List.map_cons, List.pairwise_cons, List.pairwise_cons]
        refine ⟨fun other hother => ?_, h⟩
        rcases List.mem_cons.mp hother with rfl | hrest
        · exact hless
        · exact String.lt_trans hless (h.1 other hrest)
      case isFalse hless =>
        rw [List.map_cons, List.pairwise_cons]
        refine ⟨fun other hother => ?_, ih h.2⟩
        obtain ⟨entry, hentry, rfl⟩ := List.mem_map.mp hother
        rcases mem_setEntry hentry with rfl | hrest
        · exact Std.lt_of_le_of_ne hless hname
        · exact h.1 entry.1 (List.mem_map_of_mem hrest)

/-- A tree stays well formed when a well formed node is put under names that a host allows. -/
theorem WellFormed.put {node new : FileNode} (h : node.WellFormed) (hnew : new.WellFormed)
    {place : List String} (hplace : ∀ name ∈ place, ProperName name) :
    (node.put new place).WellFormed := by
  induction place generalizing node with
  | nil => exact hnew
  | cons name rest ih =>
    obtain ⟨hname, hrest⟩ := List.forall_mem_cons.mp hplace
    cases node with
    | file content => exact h
    | directory entries =>
      obtain ⟨hsorted, hnames⟩ := h [] entries rfl
      have hold : (((directory entries).child? name).getD emptyDirectory).WellFormed := by
        cases hchild : (directory entries).child? name with
        | none => exact wellFormed_emptyDirectory
        | some next => exact h.child hchild
      rw [FileNode.put]
      refine wellFormed_directory (sorted_setEntry hsorted) ?_ ?_
      · intro entry hentry
        rcases mem_setEntry hentry with rfl | hold
        · exact hname
        · exact hnames entry hold
      · intro other next hother
        rw [child?_setEntry] at hother
        split at hother
        · obtain rfl := Option.some.inj hother
          exact ih hold hrest
        · exact h.child hother

/-- The names that a directory lists are those that lead to something. -/
theorem mem_names {entries : List (String × FileNode)} {name : String} :
    name ∈ entries.map (·.1) ↔ ((directory entries).child? name).isSome := by
  rw [child?, Option.isSome_map, List.find?_isSome, List.mem_map]
  simp only [decide_eq_true_eq]

theorem WellFormed.properName {node : FileNode} (h : node.WellFormed) {place : List String}
    {name : String} (hname : (node.kindAt? (place ++ [name])).isSome) : ProperName name := by
  obtain ⟨entries, hentries⟩ :=
    kindAt?_eq_directory.mp (kindAt?_of_append (List.cons_ne_nil name []) hname)
  rw [kindAt?_append hentries, kindAt?_cons] at hname
  have hlisted : name ∈ entries.map (·.1) := by
    rw [mem_names]
    cases hchild : (directory entries).child? name with
    | none =>
      rw [hchild] at hname
      cases hname
    | some next => rfl
  obtain ⟨entry, hentry, rfl⟩ := List.mem_map.mp hlisted
  exact (h place entries hentries).2 entry hentry

/-- All names on the way to something are such that a host allows them. -/
theorem WellFormed.properNames {node : FileNode} (h : node.WellFormed) {place : List String}
    (hplace : (node.kindAt? place).isSome) : ∀ name ∈ place, ProperName name := by
  intro name hname
  obtain ⟨front, rest, rfl⟩ := List.append_of_mem hname
  have hthere : (node.kindAt? (front ++ [name])).isSome := by
    cases rest with
    | nil => exact hplace
    | cons next rest =>
      rw [List.append_cons] at hplace
      rw [kindAt?_of_append (List.cons_ne_nil next rest) hplace]
      rfl
  exact h.properName hthere

/-! ## The files of a tree -/

theorem mem_entryFiles {entries : List (String × FileNode)} {names : List String}
    {content : Bytes} : (names, content) ∈ entryFiles entries ↔
      ∃ name node rest, (name, node) ∈ entries ∧ names = name :: rest ∧
        (rest, content) ∈ node.files := by
  induction entries with
  | nil => simp [entryFiles]
  | cons entry entries ih =>
    obtain ⟨name, node⟩ := entry
    rw [entryFiles, List.mem_append, ih, List.mem_map]
    constructor
    · rintro (⟨⟨rest, content'⟩, hfile, heq⟩ | ⟨name', node', rest, hentry, hnames, hfile⟩)
      · obtain ⟨rfl, rfl⟩ := Prod.mk.inj heq
        exact ⟨name, node, rest, List.mem_cons_self, rfl, hfile⟩
      · exact ⟨name', node', rest, List.mem_cons_of_mem _ hentry, hnames, hfile⟩
    · rintro ⟨name', node', rest, hentry, rfl, hfile⟩
      rcases List.mem_cons.mp hentry with heq | hmore
      · obtain ⟨rfl, rfl⟩ := Prod.mk.inj heq
        exact .inl ⟨(rest, content), hfile, rfl⟩
      · exact .inr ⟨name', node', rest, hmore, rfl, hfile⟩

/-- A directory that lists each name once has an entry exactly where the name leads to it. -/
theorem child?_eq_some {entries : List (String × FileNode)}
    (h : (entries.map (·.1)).Pairwise (· < ·)) {name : String} {node : FileNode} :
    (directory entries).child? name = some node ↔ (name, node) ∈ entries := by
  induction entries with
  | nil => simp [child?]
  | cons entry entries ih =>
    obtain ⟨first, next⟩ := entry
    obtain ⟨hless, hrest⟩ := List.pairwise_cons.mp h
    rw [child?_cons, List.mem_cons, Prod.mk.injEq]
    split
    case isTrue hfirst =>
      subst hfirst
      have hnot : (first, node) ∉ entries := fun hentry =>
        String.lt_irrefl first (hless first (List.mem_map_of_mem hentry))
      simp [hnot, eq_comm]
    case isFalse hfirst =>
      rw [ih hrest]
      simp [Ne.symm hfirst]

/-- The files of a well formed tree are what its places say. -/
theorem WellFormed.mem_files {node : FileNode} (h : node.WellFormed) {names : List String}
    {content : Bytes} :
    (names, content) ∈ node.files ↔ node.kindAt? names = some (.file content) := by
  induction names generalizing node with
  | nil =>
    rw [kindAt?_nil]
    cases node with
    | file content' => simp [files, kind, eq_comm]
    | directory entries =>
      rw [files, mem_entryFiles]
      simp [kind]
  | cons name rest ih =>
    rw [kindAt?_cons]
    cases node with
    | file content' => simp [files, child?]
    | directory entries =>
      have hsorted := (h [] entries rfl).1
      rw [files, mem_entryFiles, Option.bind_eq_some_iff]
      constructor
      · rintro ⟨name', next, rest', hentry, hnames, hfile⟩
        obtain ⟨rfl, rfl⟩ := List.cons.inj hnames
        have hnext := (child?_eq_some hsorted).mpr hentry
        exact ⟨next, hnext, (ih (h.child hnext)).mp hfile⟩
      · rintro ⟨next, hnext, hfile⟩
        exact ⟨name, next, rest, (child?_eq_some hsorted).mp hnext, rfl,
          (ih (h.child hnext)).mpr hfile⟩

end FileNode

end JvmRelocation
