import JvmRelocation.Proofs.Relocation.Discovery

/-!
# Entries of relocation tables

Whatever is entered in a table, in whatever order, its three maps stay in step: new names by old ones
and old names by new ones are inverse to each other, and each old name has a source. An entry is
refused exactly if one of its names is taken on its own side. That an old name is the new one of
another class is no reason to refuse it.
-/

namespace JvmRelocation

/-- What is entered in a relocation table: the names of a class and where it was found. -/
structure TableEntry where
  old : String
  relocated : String
  source : String
deriving DecidableEq, Repr

namespace RelocationTable

/-- Enters a class in a table, which stays as it is if the entry is refused. -/
def enter (e : TableEntry) : StateM RelocationTable (Except RelocationError Unit) := fun t =>
  match t.insert e.old e.relocated e.source with
  | .ok t' => (.ok (), t')
  | .error err => (.error err, t)

/-- A table after some entries, of which each is accepted or refused in turn. -/
def after (t : RelocationTable) (entries : List TableEntry) : RelocationTable :=
  entries.foldl (fun t e => (enter e t).2) t

/-- The maps of a table are in step. -/
structure OneToOne (t : RelocationTable) : Prop where
  sources : ∀ old, (t.sources.get? old).isSome = (t.relocated.get? old).isSome
  oldNames : ∀ old new, t.oldNames.get? new = some old ↔ t.relocated.get? old = some new

/-- A table says what another one says, and has one entry more. -/
structure Adds (e : TableEntry) (t t' : RelocationTable) : Prop where
  get? : ∀ old, t'.get? old = if old = e.old then some e.relocated else t.get? old
  mapper : ∀ name, t'.mapper name = if name = e.old then some e.relocated else t.mapper name
  source? : ∀ old, t'.source? old = if old = e.old then some e.source else t.source? old
  contains : ∀ old, t'.contains old = (decide (old = e.old) || t.contains old)
  toList : t'.toList.Perm ((e.old, e.relocated) :: t.toList)
  size : t'.size = t.size + 1

/-- Entries are listed in the order of their old names, none of them twice. -/
theorem toList_sorted (t : RelocationTable) :
    t.toList.Pairwise fun entry entry' => compare entry.1 entry'.1 = .lt :=
  Std.TreeMap.ordered_keys_toList

theorem mem_toList {t : RelocationTable} {old new : String} :
    (old, new) ∈ t.toList ↔ t.get? old = some new :=
  Std.TreeMap.mem_toList_iff_getElem?_eq_some

theorem contains_eq_isSome (t : RelocationTable) (old : String) :
    t.contains old = (t.get? old).isSome :=
  Std.TreeMap.contains_eq_isSome_getElem?

namespace OneToOne

variable {t t' : RelocationTable} {e : TableEntry}

theorem empty : RelocationTable.empty.OneToOne := by
  constructor
  · intro old
    simp [RelocationTable.empty]
  · intro old new
    simp [RelocationTable.empty]

/-- An old name is free exactly if it has no source. -/
theorem source_eq_none (h : t.OneToOne) {old : String} :
    t.sources.get? old = none ↔ t.contains old = false := by
  rw [contains_eq_isSome, RelocationTable.get?, ← h.sources, Option.isSome_eq_false_iff,
    Option.isNone_iff_eq_none]

/-- A new name is free exactly if it is no old name's. -/
theorem oldName_eq_none (h : t.OneToOne) {new : String} :
    t.oldNames.get? new = none ↔ ∀ old, t.get? old ≠ some new := by
  rw [Option.eq_none_iff_forall_ne_some]
  apply forall_congr'
  intro old
  rw [Ne, h.oldNames]
  rfl

/-- No two classes get one name. -/
theorem injective (h : t.OneToOne) {old old' new : String} (hold : t.get? old = some new)
    (hold' : t.get? old' = some new) : old = old' := by
  have hfirst := (h.oldNames old new).mpr hold
  have hsecond := (h.oldNames old' new).mpr hold'
  exact Option.some.inj (hfirst.symm.trans hsecond)

/-- An entry is accepted exactly if its names are free. -/
theorem insert_eq_ok (h : t.OneToOne) :
    t.insert e.old e.relocated e.source = .ok t' ↔
      t.contains e.old = false ∧ (∀ old, t.get? old ≠ some e.relocated) ∧
        t' = ⟨t.relocated.insert e.old e.relocated, t.sources.insert e.old e.source,
          t.oldNames.insert e.relocated e.old⟩ := by
  rw [RelocationTable.insert_eq_ok, h.source_eq_none, h.oldName_eq_none]

/-- An accepted entry keeps the maps in step. -/
theorem insert (h : t.OneToOne) (hinsert : t.insert e.old e.relocated e.source = .ok t') :
    t'.OneToOne := by
  obtain ⟨hold, hnew, rfl⟩ := h.insert_eq_ok.mp hinsert
  have hfree : t.relocated.get? e.old = none := by
    rwa [contains_eq_isSome, Option.isSome_eq_false_iff, Option.isNone_iff_eq_none] at hold
  constructor
  · intro old
    show ((t.sources.insert e.old e.source).get? old).isSome =
      ((t.relocated.insert e.old e.relocated).get? old).isSome
    rw [get?_treeInsert, get?_treeInsert]
    split
    · rfl
    · exact h.sources old
  · intro old new
    show (t.oldNames.insert e.relocated e.old).get? new = some old ↔
      (t.relocated.insert e.old e.relocated).get? old = some new
    rw [get?_treeInsert, get?_treeInsert]
    split
    case isTrue hnew' =>
      subst hnew'
      split
      case isTrue hold' => simp [hold']
      case isFalse hold' =>
        -- the new name was free, so no other old name has it
        simp only [Option.some.injEq, hold', false_iff]
        exact hnew old
    case isFalse hnew' =>
      rw [h.oldNames]
      split
      case isTrue hold' =>
        subst hold'
        rw [hfree]
        simp [hnew']
      case isFalse => rfl

/-- An accepted entry adds what it says and nothing else. -/
theorem adds (h : t.OneToOne) (hinsert : t.insert e.old e.relocated e.source = .ok t') :
    Adds e t t' := by
  obtain ⟨hold, hnew, rfl⟩ := h.insert_eq_ok.mp hinsert
  have hget (old : String) : (t.relocated.insert e.old e.relocated).get? old =
      if old = e.old then some e.relocated else t.relocated.get? old := by
    rw [get?_treeInsert]
    simp only [eq_comm]
  refine ⟨hget, hget, fun old => ?_, fun old => ?_, ?_, ?_⟩
  · show (t.sources.insert e.old e.source).get? old = _
    rw [get?_treeInsert]
    simp only [eq_comm]
    rfl
  · rw [contains_eq_isSome, contains_eq_isSome, RelocationTable.get?, hget]
    split
    case isTrue heq => simp [heq]
    case isFalse hne => simp [hne, RelocationTable.get?]
  · have hothers : t.toList.filter (fun entry => decide ¬(e.old == entry.1) = true) = t.toList := by
      rw [List.filter_eq_self]
      intro entry hentry
      rw [contains_eq_isSome, Option.isSome_eq_false_iff, Option.isNone_iff_eq_none] at hold
      have hlisted : t.get? entry.1 = some entry.2 := mem_toList.mp hentry
      have hne : e.old ≠ entry.1 := by
        rintro heq
        rw [← heq, hold] at hlisted
        cases hlisted
      simpa using hne
    have hperm := Std.TreeMap.toList_insert_perm (t := t.relocated) (k := e.old) (v := e.relocated)
    show (t.relocated.insert e.old e.relocated).toList.Perm ((e.old, e.relocated) :: t.toList)
    rw [← hothers]
    exact hperm
  · show (t.relocated.insert e.old e.relocated).size = t.relocated.size + 1
    rw [Std.TreeMap.size_insert, if_neg]
    show ¬t.contains e.old = true
    rw [hold]
    exact Bool.false_ne_true

end OneToOne

/-! ## Entering classes one after another -/

/-- What entering a class does: it is refused without effect, or accepted. -/
theorem enter_cases (e : TableEntry) (t : RelocationTable) :
    (∃ err, t.insert e.old e.relocated e.source = .error err ∧ enter e t = (.error err, t)) ∨
      ∃ t', t.insert e.old e.relocated e.source = .ok t' ∧ enter e t = (.ok (), t') := by
  unfold enter
  cases t.insert e.old e.relocated e.source with
  | error err => exact .inl ⟨err, rfl, rfl⟩
  | ok t' => exact .inr ⟨t', rfl, rfl⟩

theorem OneToOne.enter {t : RelocationTable} (h : t.OneToOne) (e : TableEntry) :
    (enter e t).2.OneToOne := by
  rcases enter_cases e t with ⟨err, -, hsame⟩ | ⟨t', hinsert, hentered⟩
  · rw [hsame]
    exact h
  · rw [hentered]
    exact h.insert hinsert

theorem OneToOne.after {t : RelocationTable} (h : t.OneToOne) (entries : List TableEntry) :
    (t.after entries).OneToOne := by
  induction entries generalizing t with
  | nil => exact h
  | cons e entries ih => exact ih (h.enter e)

/-- A table with all that another one says. -/
def Keeps (t t' : RelocationTable) : Prop :=
  (∀ old new, t.get? old = some new → t'.get? old = some new) ∧
    ∀ old source, t.source? old = some source → t'.source? old = some source

theorem Adds.keeps {e : TableEntry} {t t' : RelocationTable} (h : Adds e t t')
    (htable : t.OneToOne) (hfree : t.contains e.old = false) : t.Keeps t' := by
  constructor
  · intro old new hold
    rw [h.get?, if_neg, hold]
    rintro rfl
    rw [contains_eq_isSome, hold] at hfree
    cases hfree
  · intro old source hold
    rw [h.source?, if_neg, hold]
    rintro rfl
    rw [← htable.source_eq_none] at hfree
    rw [RelocationTable.source?, hfree] at hold
    cases hold

/-- Later entries never change what a table says. -/
theorem OneToOne.keeps_after {t : RelocationTable} (h : t.OneToOne) (entries : List TableEntry) :
    t.Keeps (t.after entries) := by
  induction entries generalizing t with
  | nil => exact ⟨fun _ _ hold => hold, fun _ _ hold => hold⟩
  | cons e entries ih =>
    have hrest : (RelocationTable.enter e t).2.Keeps (t.after (e :: entries)) := ih (h.enter e)
    rcases enter_cases e t with ⟨err, -, hsame⟩ | ⟨t', hinsert, hentered⟩
    · rwa [hsame] at hrest
    · rw [hentered] at hrest
      have hfirst := (h.adds hinsert).keeps h (h.insert_eq_ok.mp hinsert).1
      exact ⟨fun old new hold => hrest.1 old new (hfirst.1 old new hold),
        fun old source hold => hrest.2 old source (hfirst.2 old source hold)⟩

theorem after_append (t : RelocationTable) (entries later : List TableEntry) :
    t.after (entries ++ later) = (t.after entries).after later :=
  List.foldl_append

/-- What entering a class does to a table. -/
structure Entered (e : TableEntry) (t t' : RelocationTable) (result : Except RelocationError Unit) :
    Prop where
  ok_iff : result = .ok () ↔ t.contains e.old = false ∧ ∀ old, t.get? old ≠ some e.relocated
  adds : result = .ok () → Adds e t t'
  unchanged : result ≠ .ok () → t' = t
  oldTaken : ∀ first, t.source? e.old = some first →
    result = .error (.duplicate e.old first e.source)
  newTaken : t.contains e.old = false → ∀ first, t.get? first = some e.relocated →
    result = .error (.duplicate e.relocated first e.old)

theorem OneToOne.entered {t : RelocationTable} (h : t.OneToOne) (e : TableEntry) :
    Entered e t (RelocationTable.enter e t).2 (RelocationTable.enter e t).1 := by
  have hresult (err : RelocationError) (herr : t.insert e.old e.relocated e.source = .error err) :
      (RelocationTable.enter e t).1 = .error err := by
    unfold RelocationTable.enter
    rw [herr]
  constructor
  case ok_iff =>
    rcases enter_cases e t with ⟨err, hinsert, hsame⟩ | ⟨t', hinsert, hentered⟩
    · rw [hsame]
      simp only [reduceCtorEq, false_iff]
      rintro ⟨hold, hnew⟩
      rw [h.insert_eq_ok.mpr ⟨hold, hnew, rfl⟩] at hinsert
      cases hinsert
    · rw [hentered]
      obtain ⟨hold, hnew, -⟩ := h.insert_eq_ok.mp hinsert
      exact iff_of_true rfl ⟨hold, hnew⟩
  case adds =>
    intro hok
    rcases enter_cases e t with ⟨err, -, hsame⟩ | ⟨t', hinsert, hentered⟩
    · rw [hsame] at hok
      cases hok
    · rw [hentered]
      exact h.adds hinsert
  case unchanged =>
    intro herror
    rcases enter_cases e t with ⟨err, -, hsame⟩ | ⟨t', -, hentered⟩
    · rw [hsame]
    · rw [hentered] at herror
      exact absurd rfl herror
  case oldTaken =>
    intro first hfirst
    apply hresult
    rw [source?] at hfirst
    rw [RelocationTable.insert, hfirst]
  case newTaken =>
    intro hold first hfirst
    apply hresult
    rw [RelocationTable.insert, h.source_eq_none.mpr hold, (h.oldNames first e.relocated).mpr hfirst]

/-- **A relocation table stays one-to-one.** After any entries, accepted or refused, its maps are in
step, no two classes have one new name, and the entries are listed in order. The next entry is accepted
exactly if its old name has no entry and its new one is no entry's, and is then all that is added; a
refused one changes nothing. What the table says once it says after any further entries. -/
theorem after_entries_one_to_one (entries : List TableEntry) (e : TableEntry) :
    (empty.after entries).OneToOne ∧
    (∀ old old' new, (empty.after entries).get? old = some new →
      (empty.after entries).get? old' = some new → old = old') ∧
    ((empty.after entries).toList.Pairwise fun entry entry' => compare entry.1 entry'.1 = .lt) ∧
    Entered e (empty.after entries) (empty.after (entries ++ [e]))
      (enter e (empty.after entries)).1 ∧
    ∀ later, (empty.after entries).Keeps (empty.after (entries ++ later)) := by
  have h : (empty.after entries).OneToOne := OneToOne.empty.after entries
  refine ⟨h, fun old old' new => h.injective, toList_sorted _, ?_, ?_⟩
  · rw [after_append]
    exact h.entered e
  · intro later
    rw [after_append]
    exact h.keeps_after later

/-- A class whose old name is the new name of another one, and an entry for a name that is taken. -/
def chainSample : List TableEntry :=
  [⟨"p/A", "v1/p/A", "p/A.class"⟩, ⟨"v1/p/A", "v1/v1/p/A", "v1/p/A.class"⟩,
    ⟨"p/A", "q/A", "copy/A.class"⟩]

theorem after_entries_one_to_one_chain :
    (empty.after chainSample).toList = [("p/A", "v1/p/A"), ("v1/p/A", "v1/v1/p/A")] ∧
    Adds ⟨"p/B", "v1/p/B", "p/B.class"⟩ (empty.after chainSample)
      (empty.after (chainSample ++ [⟨"p/B", "v1/p/B", "p/B.class"⟩])) ∧
    (enter ⟨"q/A", "v1/p/A", "q/A.class"⟩ (empty.after chainSample)).1 =
      .error (.duplicate "v1/p/A" "p/A" "q/A") ∧
    (empty.after (chainSample ++ [⟨"q/A", "v1/p/A", "q/A.class"⟩])).get? "p/A" =
      some "v1/p/A" := by
  obtain ⟨-, -, -, hfree, -⟩ :=
    after_entries_one_to_one chainSample ⟨"p/B", "v1/p/B", "p/B.class"⟩
  obtain ⟨-, -, -, htaken, hlater⟩ :=
    after_entries_one_to_one chainSample ⟨"q/A", "v1/p/A", "q/A.class"⟩
  refine ⟨by decide, hfree.adds (by rfl), htaken.newTaken (by decide) "p/A" (by decide),
    (hlater _).1 "p/A" "v1/p/A" (by decide)⟩

end RelocationTable

end JvmRelocation
