import JvmRelocation.ClassFile.BuildCall
import JvmRelocation.Proofs.ClassFile.PoolTexts

/-!
# Interned constants

A builder's constants only grow, and what an index denotes is told once, about the pool that the
builder ends with: every earlier builder holds the first slots of that pool. The three maps of a
builder know no index that would denote something else there, and the map of texts knows every text
entry. Steps that only add constants compose: each one says what its result has to do with the final
pool.
-/

namespace JvmRelocation

open ModifiedUtf8

/-- What a step returns. -/
def BuildStep.result {α : Type} (s : BuildStep α) (b : ClassBuilder) : α :=
  (s.run b).1

/-- The builder that a step leads to. -/
def BuildStep.after {α : Type} (s : BuildStep α) (b : ClassBuilder) : ClassBuilder :=
  (s.run b).2

/-- The text can be stored. -/
def IsShortText (t : String) : Prop :=
  (encode t).length ≤ 65535

instance (t : String) : Decidable (IsShortText t) :=
  inferInstanceAs (Decidable (_ ≤ _))

/-- An entry as builders make them: it takes one slot, and a text entry encodes a text. -/
structure Constant.IsBuilt (k : Constant) : Prop where
  storable : k.Storable
  narrow : k.isWide = false
  encoded : ∀ bytes, k = .utf8 bytes → ∃ t, bytes = encode t

namespace ClassBuilder

variable {P : ConstantPool} {α β : Type}

/-- The builder's constants are the first ones of the pool. -/
def Within (P : ConstantPool) (b : ClassBuilder) : Prop :=
  b.slots.toList <+: P.slots.toList

/-- The builder with the constants of another one. -/
def withConstants (b other : ClassBuilder) : ClassBuilder :=
  { b with slots := other.slots, texts := other.texts, classes := other.classes,
           literals := other.literals }

theorem withConstants_trans {b b' b'' : ClassBuilder} (h : b' = b.withConstants b')
    (h' : b'' = b'.withConstants b'') : b'' = b.withConstants b'' :=
  h'.trans (congrArg (·.withConstants b'') h)

/-- What is known of a builder's constants, seen from the final pool. -/
structure Interned (P : ConstantPool) (b : ClassBuilder) : Prop where
  room : P.count ≤ ConstantPool.maxCount
  within : b.Within P
  zero : 0 < b.slots.size ∧ P.get? 0 = some .unusable
  entries : ∀ i k, 0 < i.toNat → i.toNat < b.slots.size → P.get? i = some k → k.IsBuilt
  /-- The map of texts knows the text entries so far, and nothing else. -/
  texts : ∀ t i, b.texts.get? t = some i ↔ i.toNat < b.slots.size ∧ P.text? i = some t
  classes : ∀ name i, b.classes.get? name = some i → P.className i = .ok name
  literals : ∀ value i, b.literals.get? value = some i →
    ∃ text, P.get? i = some (.stringLiteral text) ∧ P.text? text = some value

theorem Interned.withConstants {b : ClassBuilder} (h : b.Interned P) (other : ClassBuilder) :
    (other.withConstants b).Interned P :=
  { h with }

/-! ## One more constant -/

/-- The builder with a constant appended. -/
def pushed (b : ClassBuilder) (k : Constant) : ClassBuilder :=
  { b with slots := b.slots.push k }

theorem size_pushed (b : ClassBuilder) (k : Constant) :
    (b.pushed k).slots.size = b.slots.size + 1 :=
  Array.size_push k

theorem within_pushed (b : ClassBuilder) (k : Constant) :
    b.slots.toList <+: (b.pushed k).slots.toList := by
  rw [pushed, Array.toList_push]
  exact List.prefix_append _ _

/-- A constant that is appended has the index of its slot. -/
theorem Within.get?_pushed {b : ClassBuilder} {k : Constant} (h : (b.pushed k).Within P)
    (hroom : P.count ≤ ConstantPool.maxCount) :
    (UInt16.ofNat b.slots.size).toNat = b.slots.size ∧
      P.get? (UInt16.ofNat b.slots.size) = some k := by
  have hlength := h.length_le
  simp only [Array.length_toList, size_pushed] at hlength
  simp only [ConstantPool.count, ConstantPool.maxCount] at hroom
  have hindex : (UInt16.ofNat b.slots.size).toNat = b.slots.size := by
    rw [UInt16.toNat_ofNat', Nat.mod_eq_of_lt (by omega)]
  refine ⟨hindex, ?_⟩
  obtain ⟨more, hmore⟩ := h
  rw [ConstantPool.get?_eq, hindex, ← hmore, pushed, Array.toList_push, List.append_assoc]
  simp

/-- The indices of a longer builder are those from before and the new one. -/
theorem lt_size_pushed {b : ClassBuilder} {k : Constant} {i : UInt16}
    (hindex : (UInt16.ofNat b.slots.size).toNat = b.slots.size) :
    i.toNat < (b.pushed k).slots.size ↔
      i.toNat < b.slots.size ∨ i = UInt16.ofNat b.slots.size := by
  rw [size_pushed, ← UInt16.toNat_inj, hindex]
  omega

/-- A constant is appended, and the map of texts may come to know it. -/
theorem Interned.pushed {b : ClassBuilder} {k : Constant} {texts : Std.TreeMap String UInt16}
    (h : b.Interned P) (hk : k.IsBuilt) (hwithin : (b.pushed k).Within P)
    (htexts : ∀ t i, texts.get? t = some i ↔
      (i.toNat < b.slots.size ∨ i = UInt16.ofNat b.slots.size) ∧ P.text? i = some t) :
    ({ b.pushed k with texts } : ClassBuilder).Interned P := by
  obtain ⟨hindex, hget⟩ := hwithin.get?_pushed h.room
  have hpos : 0 < (b.pushed k).slots.size := (size_pushed b k).symm ▸ Nat.succ_pos _
  refine { h with within := hwithin, zero := ⟨hpos, h.zero.2⟩, entries := ?_, texts := ?_ }
  · intro i k' hpos hi hk'
    rcases (lt_size_pushed hindex).mp hi with hi | rfl
    · exact h.entries i k' hpos hi hk'
    · rw [hget] at hk'
      exact Option.some.inj hk' ▸ hk
  · intro t i
    rw [htexts]
    exact and_congr_left fun _ => (lt_size_pushed hindex).symm

/-- A constant other than a text leaves the map of texts right. -/
theorem Interned.pushed_other {b : ClassBuilder} {k : Constant} (h : b.Interned P)
    (hk : k.IsBuilt) (hother : ∀ bytes, k ≠ .utf8 bytes) (hwithin : (b.pushed k).Within P) :
    (b.pushed k).Interned P := by
  refine h.pushed hk hwithin fun t i => ?_
  rw [h.texts, or_and_right]
  refine (or_iff_left ?_).symm
  rintro ⟨rfl, ht⟩
  obtain ⟨bytes, hbytes, -⟩ := ConstantPool.utf8Bytes_of_text? ht
  rw [ConstantPool.utf8Bytes_eq_ok, (hwithin.get?_pushed h.room).2] at hbytes
  exact hother bytes (Option.some.inj hbytes)

theorem get?_insert (map : Std.TreeMap String UInt16) (t u : String) (i : UInt16) :
    (map.insert t i).get? u = if t = u then some i else map.get? u := by
  simp only [Std.TreeMap.get?_eq_getElem?, Std.TreeMap.getElem?_insert,
    Std.LawfulEqOrd.compare_eq_iff_eq]

/-- A text that is new is known from now on. -/
theorem Interned.pushed_text {b : ClassBuilder} {t : String} (h : b.Interned P)
    (hshort : IsShortText t) (hnew : b.texts.get? t = none)
    (hwithin : (b.pushed (.utf8 (encode t))).Within P) :
    ({ b.pushed (.utf8 (encode t)) with
        texts := b.texts.insert t (UInt16.ofNat b.slots.size) } : ClassBuilder).Interned P ∧
      P.text? (UInt16.ofNat b.slots.size) = some t := by
  have htext : P.text? (UInt16.ofNat b.slots.size) = some t :=
    ConstantPool.text?_encode (ConstantPool.utf8Bytes_eq_ok.mpr (hwithin.get?_pushed h.room).2)
  have hk : (Constant.utf8 (encode t)).IsBuilt :=
    ⟨Nat.lt_succ_of_le hshort, rfl, fun bytes hbytes => ⟨t, (Constant.utf8.inj hbytes).symm⟩⟩
  refine ⟨h.pushed hk hwithin fun u i => ?_, htext⟩
  rw [get?_insert]
  split
  case isTrue heq =>
    subst heq
    constructor
    · intro hi
      obtain rfl := Option.some.inj hi
      exact ⟨.inr rfl, htext⟩
    · rintro ⟨hlt | rfl, hi⟩
      · rw [(h.texts t i).mpr ⟨hlt, hi⟩] at hnew
        cases hnew
      · rfl
  case isFalse hne =>
    rw [h.texts, or_and_right]
    refine (or_iff_left ?_).symm
    rintro ⟨rfl, hi⟩
    exact hne (Option.some.inj (htext.symm.trans hi))

/-- What is true of all that a map knows stays so with one more entry of which it is true. -/
theorem forall_get?_insert {map : Std.TreeMap String UInt16} {means : String → UInt16 → Prop}
    (hmap : ∀ t i, map.get? t = some i → means t i) {t : String} {i : UInt16} (h : means t i)
    (u : String) (j : UInt16) (hj : (map.insert t i).get? u = some j) : means u j := by
  rw [get?_insert] at hj
  split at hj
  case isTrue heq =>
    obtain rfl := Option.some.inj hj
    exact heq ▸ h
  case isFalse => exact hmap u j hj

theorem Interned.insert_class {b : ClassBuilder} {name : String} {i : UInt16} (h : b.Interned P)
    (hname : P.className i = .ok name) :
    ({ b with classes := b.classes.insert name i } : ClassBuilder).Interned P :=
  { h with classes := forall_get?_insert h.classes hname }

theorem Interned.insert_literal {b : ClassBuilder} {value : String} {i : UInt16} (h : b.Interned P)
    (hvalue : ∃ text, P.get? i = some (.stringLiteral text) ∧ P.text? text = some value) :
    ({ b with literals := b.literals.insert value i } : ClassBuilder).Interned P :=
  { h with literals := forall_get?_insert h.literals hvalue }

/-! ## Steps that only add constants -/

/-- A step that only adds constants, and whose result has to do with the final pool. -/
structure Interns (P : ConstantPool) (s : BuildStep α) (means : α → Prop) : Prop where
  frame : ∀ b, s.after b = b.withConstants (s.after b)
  grows : ∀ b, b.slots.toList <+: (s.after b).slots.toList
  sound : ∀ b, b.Interned P → (s.after b).Within P →
    (s.after b).Interned P ∧ means (s.result b)

theorem Interns.weaken {s : BuildStep α} {means weaker : α → Prop} (h : Interns P s means)
    (hle : ∀ a, means a → weaker a) : Interns P s weaker where
  frame := h.frame
  grows := h.grows
  sound b hb hwithin := (h.sound b hb hwithin).imp_right (hle _)

theorem interns_pure (a : α) : Interns P (pure a) (· = a) where
  frame _ := rfl
  grows _ := List.prefix_rfl
  sound _ hb _ := ⟨hb, rfl⟩

theorem Interns.bind {s : BuildStep α} {f : α → BuildStep β} {means : α → Prop}
    {thenMeans : α → β → Prop} (hs : Interns P s means) (hf : ∀ a, Interns P (f a) (thenMeans a)) :
    Interns P (s >>= f) fun c => ∃ a, means a ∧ thenMeans a c where
  frame b := withConstants_trans (hs.frame b) ((hf _).frame _)
  grows b := (hs.grows b).trans ((hf _).grows _)
  sound b hb hwithin := by
    have hmid := hs.sound b hb (((hf (s.result b)).grows _).trans hwithin)
    have hend := (hf (s.result b)).sound _ hmid.1 hwithin
    exact ⟨hend.1, _, hmid.2, hend.2⟩

theorem Interns.map {s : BuildStep α} {means : α → Prop} (hs : Interns P s means) (f : α → β) :
    Interns P (do return f (← s)) fun c => ∃ a, means a ∧ c = f a :=
  hs.bind fun a => interns_pure (f a)

/-- Steps for the members of a list. -/
theorem interns_mapM {f : α → BuildStep β} {means : α → β → Prop} {list : List α}
    (hf : ∀ a ∈ list, Interns P (f a) (means a)) :
    Interns P (list.mapM f) (List.Forall₂ means list) := by
  induction list with
  | nil => exact (interns_pure []).weaken (by rintro _ rfl; exact .nil)
  | cons a list ih =>
    obtain ⟨ha, hlist⟩ := List.forall_mem_cons.mp hf
    rw [List.mapM_cons]
    refine (ha.bind fun c => (ih hlist).map (c :: ·)).weaken ?_
    rintro _ ⟨c, hc, rest, hrest, rfl⟩
    exact .cons hc hrest

theorem interns_push {k : Constant} (hk : k.IsBuilt) (hother : ∀ bytes, k ≠ .utf8 bytes) :
    Interns P (push k) fun index => P.get? index = some k where
  frame _ := rfl
  grows b := within_pushed b k
  sound _ hb hwithin := ⟨hb.pushed_other hk hother hwithin, (hwithin.get?_pushed hb.room).2⟩

/-! ## Interning -/

/-- The index that is known, or else the one that a step makes. -/
def knownOr (known : ClassBuilder → Option UInt16) (make : BuildStep UInt16) : BuildStep UInt16 := do
  match known (← get) with
  | some index => return index
  | none => make

theorem knownOr_run (known : ClassBuilder → Option UInt16) (make : BuildStep UInt16)
    (b : ClassBuilder) :
    (knownOr known make).run b =
      match known b with
      | some index => (index, b)
      | none => make.run b := by
  change (match known b with | some index => pure index | none => make : BuildStep UInt16).run b = _
  cases known b <;> rfl

theorem interns_knownOr (known : ClassBuilder → Option UInt16) {make : BuildStep UInt16}
    {means : UInt16 → Prop} (hknown : ∀ b i, b.Interned P → known b = some i → means i)
    (hframe : ∀ b, make.after b = b.withConstants (make.after b))
    (hgrows : ∀ b, b.slots.toList <+: (make.after b).slots.toList)
    (hsound : ∀ b, known b = none → b.Interned P → (make.after b).Within P →
      (make.after b).Interned P ∧ means (make.result b)) :
    Interns P (knownOr known make) means := by
  have hcases (b : ClassBuilder) :
      (∃ index, known b = some index ∧ (knownOr known make).run b = (index, b)) ∨
        known b = none ∧ (knownOr known make).run b = make.run b := by
    cases h : known b with
    | some index => exact .inl ⟨index, rfl, by rw [knownOr_run, h]⟩
    | none => exact .inr ⟨rfl, by rw [knownOr_run, h]⟩
  constructor
  · intro b
    rcases hcases b with ⟨index, -, hrun⟩ | ⟨-, hrun⟩
    · rw [BuildStep.after, hrun]
      rfl
    · rw [BuildStep.after, hrun]
      exact hframe b
  · intro b
    rcases hcases b with ⟨index, -, hrun⟩ | ⟨-, hrun⟩
    · simp only [BuildStep.after, hrun, List.prefix_rfl]
    · rw [BuildStep.after, hrun]
      exact hgrows b
  · intro b hb hwithin
    rcases hcases b with ⟨index, hindex, hrun⟩ | ⟨hnone, hrun⟩
    · rw [BuildStep.after, BuildStep.result, hrun]
      exact ⟨hb, hknown b index hb hindex⟩
    · rw [BuildStep.after, hrun] at hwithin
      rw [BuildStep.after, BuildStep.result, hrun]
      exact hsound b hnone hb hwithin

theorem interns_text {t : String} (hshort : IsShortText t) :
    Interns P (text t) fun index => P.text? index = some t :=
  interns_knownOr (fun b => b.texts.get? t) (fun _ i hb hi => ((hb.texts t i).mp hi).2)
    (fun _ => rfl) (fun b => within_pushed b _) fun _ hnew hb hwithin =>
      hb.pushed_text hshort hnew hwithin

/-- A step whose result is remembered in one of the maps. -/
theorem Interns.remember {s : BuildStep UInt16} {means : UInt16 → Prop} (h : Interns P s means)
    (remember : UInt16 → ClassBuilder → ClassBuilder)
    (hframe : ∀ i b, remember i b = b.withConstants (remember i b))
    (hslots : ∀ i b, (remember i b).slots = b.slots)
    (hsound : ∀ i b, means i → b.Interned P → (remember i b).Interned P) :
    Interns P (do
      let index ← s
      modify (remember index)
      return index) means where
  frame b := withConstants_trans (h.frame b) (hframe (s.result b) (s.after b))
  grows b := (h.grows b).trans (hslots (s.result b) (s.after b) ▸ List.prefix_rfl)
  sound b hb hwithin := by
    change (remember (s.result b) (s.after b)).Within P at hwithin
    rw [Within, hslots] at hwithin
    obtain ⟨hafter, hmeans⟩ := h.sound b hb hwithin
    exact ⟨hsound _ _ hmeans hafter, hmeans⟩

theorem interns_classRef {name : String} (hshort : IsShortText name) :
    Interns P (classRef name) fun index => P.className index = .ok name := by
  have hpush : Interns P (do push (.classInfo (← text name)))
      fun index => P.className index = .ok name :=
    ((interns_text hshort).bind fun j =>
      interns_push (k := .classInfo j) ⟨trivial, rfl, nofun⟩ nofun).weaken
      fun i ⟨j, hj, hi⟩ => ConstantPool.className_eq_ok.mpr ⟨j, hi, hj⟩
  have hmake := hpush.remember (fun i b => { b with classes := b.classes.insert name i })
    (fun _ _ => rfl) (fun _ _ => rfl) fun _ _ hname hb => hb.insert_class hname
  exact interns_knownOr (fun b => b.classes.get? name) (fun _ i hb => hb.classes name i)
    hmake.frame hmake.grows fun b _ => hmake.sound b

theorem interns_literal {value : String} (hshort : IsShortText value) :
    Interns P (literal value) fun index =>
      ∃ text, P.get? index = some (.stringLiteral text) ∧ P.text? text = some value := by
  have hpush : Interns P (do push (.stringLiteral (← text value))) fun index =>
      ∃ text, P.get? index = some (.stringLiteral text) ∧ P.text? text = some value :=
    ((interns_text hshort).bind fun j =>
      interns_push (k := .stringLiteral j) ⟨trivial, rfl, nofun⟩ nofun).weaken
      fun i ⟨j, hj, hi⟩ => ⟨j, hi, hj⟩
  have hmake := hpush.remember (fun i b => { b with literals := b.literals.insert value i })
    (fun _ _ => rfl) (fun _ _ => rfl) fun _ _ hvalue hb => hb.insert_literal hvalue
  exact interns_knownOr (fun b => b.literals.get? value) (fun _ i hb => hb.literals value i)
    hmake.frame hmake.grows fun b _ => hmake.sound b

theorem interns_methodRef {owner name descriptor : String} (howner : IsShortText owner)
    (hname : IsShortText name) (hdescriptor : IsShortText descriptor) :
    Interns P (methodRef owner name descriptor) fun index =>
      ∃ ownerIndex nameAndType nameIndex descriptorIndex,
        P.get? index = some (.methodRef ownerIndex nameAndType) ∧
        P.className ownerIndex = .ok owner ∧
        P.get? nameAndType = some (.nameAndType nameIndex descriptorIndex) ∧
        P.text? nameIndex = some name ∧ P.text? descriptorIndex = some descriptor := by
  have hsteps := (interns_classRef (P := P) howner).bind fun i =>
    (interns_text (P := P) hname).bind fun j => (interns_text (P := P) hdescriptor).bind fun k =>
      (interns_push (P := P) (k := .nameAndType j k) ⟨trivial, rfl, nofun⟩ nofun).bind fun l =>
        interns_push (P := P) (k := .methodRef i l) ⟨trivial, rfl, nofun⟩ nofun
  refine Interns.weaken hsteps ?_
  rintro index ⟨i, hi, j, hj, k, hk, l, hl, hindex⟩
  exact ⟨i, l, j, k, hindex, hi, hl, hj, hk⟩

end ClassBuilder

end JvmRelocation
