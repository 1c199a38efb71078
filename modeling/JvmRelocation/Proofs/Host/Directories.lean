import JvmRelocation.Proofs.Host.Lookup

/-!
# Directories on the way to a file

Creating a directory with its parents adds directories where ancestors of its path lead, and does
nothing else, whether it succeeds or not. It asks the file system only about these ancestors.
-/

namespace JvmRelocation

open FileNode

namespace FileTree

/-- Whether a tree holds what another one does, and otherwise only directories to which paths of the
given kind lead. -/
structure DirectoriesAdded (allowed : String → Prop) (t t' : FileTree) : Prop where
  workingDirectory_eq : t'.workingDirectory = t.workingDirectory
  kindAt? : ∀ place, t'.root.kindAt? place = t.root.kindAt? place ∨
    t.root.kindAt? place = none ∧ t'.root.kindAt? place = some .directory ∧
      ∃ path, allowed path ∧ t'.Leads path place
  wellFormed : t.root.WellFormed → t'.root.WellFormed

namespace DirectoriesAdded

variable {allowed allowed' : String → Prop} {t t' t'' : FileTree}

theorem grows (h : DirectoriesAdded allowed t t') : Grows t t' where
  workingDirectory_eq := h.workingDirectory_eq
  directory {place} hplace := by
    rcases h.kindAt? place with hsame | ⟨hnone, -⟩
    · rw [hsame, hplace]
    · rw [hplace] at hnone
      cases hnone
  isSome {place} hplace := by
    rcases h.kindAt? place with hsame | ⟨-, hmade, -⟩
    · rw [hsame]
      exact hplace
    · rw [hmade]
      rfl
  wellFormed := h.wellFormed

/-- No file appears, changes or goes away. -/
theorem file_iff (h : DirectoriesAdded allowed t t') {place : List String} {content : Bytes} :
    t'.root.kindAt? place = some (.file content) ↔ t.root.kindAt? place = some (.file content) := by
  rcases h.kindAt? place with hsame | ⟨hnone, hmade, -⟩
  · rw [hsame]
  · rw [hnone, hmade]
    simp

theorem refl (allowed : String → Prop) (t : FileTree) : DirectoriesAdded allowed t t :=
  ⟨rfl, fun _ => .inl rfl, id⟩

theorem trans (h : DirectoriesAdded allowed t t') (h' : DirectoriesAdded allowed t' t'') :
    DirectoriesAdded allowed t t'' where
  workingDirectory_eq := h'.workingDirectory_eq.trans h.workingDirectory_eq
  kindAt? place := by
    rcases h'.kindAt? place with hsame | ⟨hnone, hmade, hallowed⟩
    · rcases h.kindAt? place with hsame' | ⟨hnone, hmade, path, hpath, hleads⟩
      · exact .inl (hsame.trans hsame')
      · exact .inr ⟨hnone, hsame.trans hmade, path, hpath, h'.grows.leads hleads⟩
    · refine .inr ⟨?_, hmade, hallowed⟩
      cases hplace : t.root.kindAt? place with
      | none => rfl
      | some kind =>
        have hsome : (t.root.kindAt? place).isSome := by
          rw [hplace]
          rfl
        have hstill := h.grows.isSome hsome
        rw [hnone] at hstill
        cases hstill
  wellFormed ht := h'.wellFormed (h.wellFormed ht)

theorem mono (h : DirectoriesAdded allowed t t') (hmore : ∀ path, allowed path → allowed' path) :
    DirectoriesAdded allowed' t t' where
  workingDirectory_eq := h.workingDirectory_eq
  kindAt? place := (h.kindAt? place).imp_right fun ⟨hnone, hmade, path, hpath, hleads⟩ =>
    ⟨hnone, hmade, path, hmore path hpath, hleads⟩
  wellFormed := h.wellFormed

theorem of_makeDirectory {path : String} (hpath : allowed path)
    (h : t.makeDirectory path = .ok t') : DirectoriesAdded allowed t t' := by
  obtain ⟨place, hnone, hput, hleads⟩ := putAt_of_makeDirectory h
  refine ⟨hput.workingDirectory_eq, fun other => ?_, hput.wellFormed⟩
  by_cases hother : other = place
  · subst hother
    exact .inr ⟨hnone, hput.kindAt?_place, path, hpath, hleads⟩
  · rw [hput.kindAt?_eq, if_neg hother]
    exact .inl rfl

end DirectoriesAdded

/-! ## Creating directories in a tree -/

/-- Whether a computation on trees adds directories to which paths of the given kind lead, and does
nothing else. -/
def AddsDirectories {α : Type} (allowed : String → Prop) (action : StateM FileTree α) : Prop :=
  ∀ t, DirectoriesAdded allowed t (action t).2

namespace AddsDirectories

variable {α β : Type} {allowed allowed' : String → Prop} {path : String}

theorem pure (a : α) : AddsDirectories allowed (Pure.pure a) := fun t => .refl allowed t

theorem bind {action : StateM FileTree α} {next : α → StateM FileTree β}
    (h : AddsDirectories allowed action) (hnext : ∀ a, AddsDirectories allowed (next a)) :
    AddsDirectories allowed (action >>= next) :=
  fun t => (h t).trans (hnext (action t).1 (action t).2)

theorem mono {action : StateM FileTree α} (h : AddsDirectories allowed action)
    (hmore : ∀ path, allowed path → allowed' path) : AddsDirectories allowed' action :=
  fun t => (h t).mono hmore

/-- An answer that leaves the tree as it is. -/
theorem isDirectory (path : String) : AddsDirectories allowed (fileSystem.isDirectory path) :=
  fun t => .refl allowed t

theorem makeDirectory (hpath : allowed path) :
    AddsDirectories allowed (fileSystem.makeDirectory path) := by
  intro t
  change DirectoriesAdded allowed t (update (·.makeDirectory path) t).2
  rw [update]
  cases hmade : t.makeDirectory path with
  | error fault => exact .refl allowed t
  | ok t' => exact .of_makeDirectory hpath hmade

theorem ensureDirectory (hpath : allowed path) :
    AddsDirectories allowed (fileSystem.ensureDirectory path) := by
  refine bind (makeDirectory hpath) fun made => ?_
  cases made with
  | ok _ => exact pure _
  | error e =>
    refine bind (isDirectory path) fun there => ?_
    cases there with
    | true => exact pure _
    | false => exact pure _

/-- By induction on the fuel: a missing directory has its parents created first. -/
theorem createDirectoriesFrom (fuel : Nat) (path : String) :
    AddsDirectories (HostPath.IsOnWay path) (fileSystem.createDirectoriesFrom fuel path) := by
  have hpath : HostPath.IsOnWay path path := .inl rfl
  induction fuel generalizing path with
  | zero => exact pure _
  | succ fuel ih =>
    rw [FileSystem.createDirectoriesFrom]
    split
    · exact pure _
    · refine bind (makeDirectory hpath) fun made => ?_
      cases made with
      | ok _ => exact pure _
      | error e =>
        dsimp only
        split
        · cases hparent : HostPath.parent? path with
          | none => exact pure _
          | some parent =>
            have hancestor := HostPath.isAncestor_of_parent? hparent
            refine bind ((ih parent (.inl rfl)).mono fun other hother => .inr ?_) ?_
            · exact hother.isAncestor hancestor
            · rintro (e | _)
              · exact pure _
              · exact ensureDirectory hpath
        · refine bind (isDirectory path) fun there => ?_
          cases there with
          | true => exact pure _
          | false => exact pure _

theorem createDirectories (path : String) :
    AddsDirectories (HostPath.IsOnWay path) (fileSystem.createDirectories path) :=
  createDirectoriesFrom (path.length + 1) path

end AddsDirectories

end FileTree

/-! ## Calls on the way -/

namespace FileSystem

variable {m : Type → Type} [Monad m] {fs fs' : FileSystem m}

theorem ensureDirectory_congr {path : String} (hmake : fs.makeDirectory path = fs'.makeDirectory path)
    (hthere : fs.isDirectory path = fs'.isDirectory path) :
    fs.ensureDirectory path = fs'.ensureDirectory path := by
  rw [ensureDirectory, ensureDirectory, hmake, hthere]

/-- Creating directories makes no call but about the path and its ancestors: file systems that do the
same on these do the same. -/
theorem createDirectoriesFrom_congr {path : String}
    (hmake : ∀ other, HostPath.IsOnWay path other → fs.makeDirectory other = fs'.makeDirectory other)
    (hthere : ∀ other, HostPath.IsOnWay path other → fs.isDirectory other = fs'.isDirectory other)
    (fuel : Nat) : fs.createDirectoriesFrom fuel path = fs'.createDirectoriesFrom fuel path := by
  induction fuel generalizing path with
  | zero => rfl
  | succ fuel ih =>
    have hensure : fs.ensureDirectory path = fs'.ensureDirectory path :=
      ensureDirectory_congr (hmake path (.inl rfl)) (hthere path (.inl rfl))
    rw [createDirectoriesFrom, createDirectoriesFrom, hmake path (.inl rfl),
      hthere path (.inl rfl), hensure]
    cases hparent : HostPath.parent? path with
    | none => rfl
    | some parent =>
      have hancestor := HostPath.isAncestor_of_parent? hparent
      have hparents : fs.createDirectoriesFrom fuel parent = fs'.createDirectoriesFrom fuel parent :=
        ih (fun other h => hmake other (.inr (h.isAncestor hancestor)))
          fun other h => hthere other (.inr (h.isAncestor hancestor))
      simp only [hparents]

end FileSystem

end JvmRelocation
