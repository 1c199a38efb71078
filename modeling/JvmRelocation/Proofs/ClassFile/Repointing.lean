import JvmRelocation.Proofs.ClassFile.AppendedTexts
import JvmRelocation.Proofs.ClassFile.Substitution

/-!
# Every location is found again

The sites of a plan are found in one class and given their indices in another: by then texts have
been replaced, others appended, and sites in front of them exchanged. Here a plan is carried out site
by site. A text is appended when the first site needs it, and the index is written only where the
location of the site holds one: not at a slot that bears no name, at a position without a member or
an attribute, or at an offset without two bytes. That never happens, and the class that comes out is
the one that carrying out the plan makes.
-/

namespace JvmRelocation

open BigEndian Layout TextReference

/-! ## What stands at a location -/

/-- The index in two bytes of an attribute's body, if it is that long. -/
def Attribute.indexAt (a : Attribute) (offset : Nat) : Option UInt16 :=
  match a.body[offset]?, a.body[offset + 1]? with
  | some high, some low => some (word16 high low)
  | _, _ => none

/-- The index of a text that mentions classes in a constant that bears one. -/
def Constant.borneIndex : Constant → Option UInt16
  | .classInfo name => some name
  | .nameAndType _ descriptor => some descriptor
  | .methodType descriptor => some descriptor
  | _ => none

/-- The index that stands at a location, if there is one. -/
def ClassFile.indexAt (c : ClassFile) : Location → Option UInt16
  | .slot i => (c.pool.get? i).bind Constant.borneIndex
  | .fieldDescriptor i => c.fields[i]?.map (·.descriptorIndex)
  | .methodDescriptor i => c.methods[i]?.map (·.descriptorIndex)
  | .attributeBody owner position offset =>
    (c.attributesOf owner)[position]?.bind fun a => a.indexAt offset

/-- Why a site is not given its index. -/
inductive RepointError where
  /-- Its text is not appended. -/
  | refused (e : FormatError)
  /-- No index stands at its location. -/
  | misses (location : Location)
deriving DecidableEq, Repr

namespace ClassFile

/-- Exchanges the index at a location, where there is one. -/
def repoint (c : ClassFile) (location : Location) (index : UInt16) :
    Except RepointError ClassFile :=
  match c.indexAt location with
  | some _ => .ok (c.setIndex location index)
  | none => .error (.misses location)

/-- Gives each site the index of its text, which is appended if it is not there yet. -/
def repointEach (c : ClassFile) (known : ConstantPool.Appended) :
    List (NameSite × String) → Except RepointError ClassFile
  | [] => .ok c
  | (s, text) :: rest =>
    if known.contains text then
      c.repoint s.location (known.getD text 0) >>= fun c => c.repointEach known rest
    else
      match c.pool.push (ModifiedUtf8.encode text) with
      | .ok (index, pool) =>
        { c with pool := pool }.repoint s.location index >>= fun c =>
          c.repointEach (known.insert text index) rest
      | .error e => .error (.refused e)

/-- The class file after a plan is carried out site by site. -/
def carryOutEach (c : ClassFile) (plan : RenamingPlan) : Except RepointError ClassFile :=
  { c with pool := c.pool.replaceTexts plan.replaced }.repointEach {} plan.moved

end ClassFile

/-! ## Exchanged indices stand where they were -/

/-- An index stands in the bytes of a layout at its offset. -/
theorem Layout.toBytes_of_mention {offset : Nat} {l : Layout} {m : Mention}
    (h : m ∈ mentionsAt offset l) :
    ∃ front behind, toBytes l = front ++ (bytes16 m.index ++ behind) ∧
      m.offset = offset + front.length := by
  induction l generalizing offset with
  | nil => cases h
  | cons part l ih =>
    obtain ⟨here, heq, hhere⟩ := mentionsAt_cons offset part l
    rw [heq, List.mem_append] at h
    rw [toBytes_cons]
    rcases h with h | h
    · obtain ⟨hoffset, rfl⟩ := hhere m h
      exact ⟨[], toBytes l, rfl, hoffset⟩
    · obtain ⟨front, behind, hbytes, hoffset⟩ := ih h
      refine ⟨part.toBytes ++ front, behind, by rw [hbytes, List.append_assoc], ?_⟩
      rw [hoffset, List.length_append]
      omega

/-- An index is read at the place where the layout of a body mentions it. -/
theorem Attribute.indexAt_of_mention {a : Attribute} {l : Layout} {m : Mention}
    (hbody : a.body.toList = l.toBytes) (hm : m ∈ mentionsAt 0 l) :
    a.indexAt m.offset = some m.index := by
  obtain ⟨front, behind, hbytes, hoffset⟩ := toBytes_of_mention hm
  have hplace : m.offset = front.length := by
    rw [Nat.zero_add] at hoffset
    exact hoffset
  have hhigh : a.body[front.length]? = some (UInt8.ofNat (m.index.toNat / 256)) := by
    rw [← Array.getElem?_toList, hbody, hbytes]
    simp [bytes16]
  have hlow : a.body[front.length + 1]? = some (UInt8.ofNat m.index.toNat) := by
    rw [← Array.getElem?_toList, hbody, hbytes]
    simp [bytes16]
  rw [indexAt, hplace, hhigh, hlow]
  exact congrArg some (word16_bytes16 m.index)

theorem Attribute.indexAt_withIndices {pool : ConstantPool} {a : Attribute} {m : Mention}
    (hm : m ∈ (a.parts pool).mentions) (huse : m.use ≠ .pinned) (changes : Nat → Option UInt16) :
    (a.withIndices pool changes).indexAt m.offset = some ((changes m.offset).getD m.index) := by
  rw [mentions_eq] at hm
  have hnew : m.withIndex changes ∈
      mentionsAt 0 (Layout.withIndices changes 0 (a.parts pool)) := by
    rw [mentionsAt_withIndices]
    exact List.mem_map_of_mem hm
  have hindex : (m.withIndex changes).index = (changes m.offset).getD m.index := if_neg huse
  rw [← hindex]
  exact indexAt_of_mention rfl hnew

/-- A pool that holds every slot of another one that is no text. -/
def ConstantPool.KeepsOthers (pool pool' : ConstantPool) : Prop :=
  ∀ i k, pool.get? i = some k → (∀ bytes, k ≠ .utf8 bytes) → pool'.get? i = some k

theorem ConstantPool.KeepsOthers.push {pool mid mid' : ConstantPool} (h : pool.KeepsOthers mid)
    {bytes : Bytes} {index : UInt16} (hpush : mid.push bytes = .ok (index, mid')) :
    pool.KeepsOthers mid' := by
  intro i k hk hother
  obtain ⟨-, -, hslots⟩ := push_eq_ok hpush
  have hmid := h i k hk hother
  rw [get?_of_append hslots (lt_count_of_get? hmid), hmid]

/-- There is no index in a text that could be exchanged. -/
theorem Constant.withIndex_utf8 (value : Option UInt16) (bytes : Bytes) :
    (Constant.utf8 bytes).withIndex value = .utf8 bytes := by
  cases value <;> rfl

theorem ConstantPool.push_withIndices (pool : ConstantPool) (changes : UInt16 → Option UInt16)
    (bytes : Bytes) : (pool.withIndices changes).push bytes =
      (pool.push bytes).map fun pushed => (pushed.1, pushed.2.withIndices changes) := by
  rw [push, push, count_withIndices]
  split
  · rfl
  · simp [Except.map, withIndices, Constant.withIndex_utf8]

namespace ClassFile

/-- **A site keeps its location.** Whatever indices are exchanged, the one of a site is found where
the site stands. -/
theorem indexAt_withIndices {c : ClassFile} {pool : ConstantPool} {s : NameSite}
    (hs : c.HoldsSite s) (hkeeps : c.pool.KeepsOthers pool)
    (changes : Location → Option UInt16) :
    (c.withIndices pool changes).indexAt s.location = some (newIndex changes s) := by
  obtain ⟨location, index, role⟩ := s
  unfold newIndex
  cases location with
  | slot i =>
    obtain ⟨k, hk, hsite⟩ := hs
    have htext (bytes : Bytes) : k ≠ .utf8 bytes := by
      rintro rfl
      cases hsite
    show ((pool.withIndices fun i => changes (.slot i)).get? i).bind Constant.borneIndex = _
    rw [ConstantPool.get?_withIndices, hkeeps i k hk htext]
    cases hchange : changes (.slot i) <;>
      cases k <;> simp_all [ofConstant, Constant.withIndex, Constant.withText, Constant.borneIndex]
  | fieldDescriptor i =>
    obtain ⟨-, hindex⟩ := hs
    obtain ⟨member, hmember, rfl⟩ := Option.map_eq_some_iff.mp hindex
    simp [indexAt, withIndices, hmember, Member.withIndices]
  | methodDescriptor i =>
    obtain ⟨-, hindex⟩ := hs
    obtain ⟨member, hmember, rfl⟩ := Option.map_eq_some_iff.mp hindex
    simp [indexAt, withIndices, hmember, Member.withIndices]
  | attributeBody owner position offset =>
    obtain ⟨m, ⟨huse, a, ha, hm⟩, rfl, hsite⟩ := hs
    obtain ⟨-, -, hindex⟩ := ofMention_eq_site hsite
    obtain rfl : index = m.index := hindex
    show ((c.withIndices pool changes).attributesOf owner)[position]?.bind _ = _
    rw [attributesOf_withIndices, Array.getElem?_mapIdx, ha]
    exact Attribute.indexAt_withIndices hm huse _

/-! ## Site by site -/

theorem repoint_withIndices {c : ClassFile} {pool : ConstantPool} {s : NameSite}
    (hs : c.HoldsSite s) (hkeeps : c.pool.KeepsOthers pool) (hcount : pool.count ≤ 65536)
    (changes : Location → Option UInt16) (index : UInt16) :
    (c.withIndices pool changes).repoint s.location index =
      .ok (c.withIndices pool (exchange changes s.location index)) := by
  rw [repoint, indexAt_withIndices hs hkeeps, ← setIndex_withIndices hcount hs.hasPlace]

/-- What has been done after some sites is told by the pool and by the indices that were exchanged.
With these, going on site by site does what appending all texts first and exchanging all indices
afterwards does. -/
theorem repointEach_withIndices {c : ClassFile} {moved : List (NameSite × String)}
    (hsites : ∀ e ∈ moved, c.HoldsSite e.1) {pool : ConstantPool}
    (hkeeps : c.pool.KeepsOthers pool) (hcount : pool.count ≤ ConstantPool.maxCount)
    (known : ConstantPool.Appended) (changes : Location → Option UInt16) :
    (c.withIndices pool changes).repointEach known moved =
      match pool.appendTexts known (moved.map (·.2)) with
      | .ok (pool', known') => .ok (c.withIndices pool' (indicesOf known' moved changes))
      | .error e => .error (.refused e) := by
  induction moved generalizing pool known changes with
  | nil => rfl
  | cons e moved ih =>
    obtain ⟨s, text⟩ := e
    obtain ⟨hs, hmoved⟩ := List.forall_mem_cons.mp hsites
    have hindices (known' : ConstantPool.Appended) : indicesOf known' ((s, text) :: moved) changes =
        indicesOf known' moved (exchange changes s.location (known'.getD text 0)) := rfl
    have hsmall (pool : ConstantPool) (h : pool.count ≤ ConstantPool.maxCount) :
        pool.count ≤ 65536 := by
      unfold ConstantPool.maxCount at h
      omega
    rw [repointEach, List.map_cons]
    by_cases hknown : known.contains text = true
    · rw [if_pos hknown, repoint_withIndices hs hkeeps (hsmall pool hcount)]
      show (c.withIndices pool _).repointEach known moved = _
      rw [ih hmoved hkeeps hcount, ConstantPool.appendTexts, if_pos hknown]
      cases happend : pool.appendTexts known (moved.map (·.2)) with
      | error e => rfl
      | ok result =>
        obtain ⟨pool', known'⟩ := result
        dsimp only
        rw [hindices, ConstantPool.getD_of_appendTexts happend hknown]
    · rw [if_neg hknown, ConstantPool.appendTexts, if_neg hknown]
      have hclass : (c.withIndices pool changes).pool =
          pool.withIndices fun i => changes (.slot i) := rfl
      rw [hclass, ConstantPool.push_withIndices]
      cases hpush : pool.push (ModifiedUtf8.encode text) with
      | error e => rfl
      | ok pushed =>
        obtain ⟨index, mid⟩ := pushed
        obtain ⟨hroom, -⟩ := ConstantPool.push_eq_ok hpush
        have hmid : mid.count ≤ ConstantPool.maxCount := by
          rw [ConstantPool.count_of_push hpush]
          exact hroom
        show ((c.withIndices mid changes).repoint s.location index >>= _) = _
        rw [repoint_withIndices hs (hkeeps.push hpush) (hsmall mid hmid)]
        show (c.withIndices mid _).repointEach (known.insert text index) moved = _
        rw [ih hmoved (hkeeps.push hpush) hmid]
        dsimp only
        cases happend : mid.appendTexts (known.insert text index) (moved.map (·.2)) with
        | error e => rfl
        | ok result =>
          obtain ⟨pool', known'⟩ := result
          dsimp only
          have hnew : (known.insert text index).contains text = true := by
            rw [Std.TreeMap.contains_insert_self]
          rw [hindices, ConstantPool.getD_of_appendTexts happend hnew, Std.TreeMap.getD_insert_self]

/-- Replacing texts keeps every other slot. -/
theorem keepsOthers_replaceTexts {c : ClassFile} {m : NameMapper} {found : NameSites} :
    c.pool.KeepsOthers (c.pool.replaceTexts (RenamingPlan.make m c.pool found).replaced) := by
  intro i k hk hother
  rw [ConstantPool.get?_replaceTexts_of_not_mem, hk]
  intro t ht
  obtain ⟨-, v, hv, -⟩ := RenamingPlan.mem_replaced.mp ht
  obtain ⟨bytes, hbytes, -⟩ := ConstantPool.utf8Bytes_of_text? hv
  rw [ConstantPool.utf8Bytes_eq_ok, hk] at hbytes
  exact hother bytes (Option.some.inj hbytes)

/-- A plan whose texts are appended exchanges the indices of its sites. -/
theorem carryOut_of_appendTexts {c : ClassFile} {m : NameMapper} {found : NameSites}
    {pool : ConstantPool} {known : ConstantPool.Appended}
    (hcount : c.pool.count ≤ ConstantPool.maxCount) (hfound : c.nameSites = .ok found)
    (happend : (c.pool.replaceTexts (RenamingPlan.make m c.pool found).replaced).appendTexts {}
      ((RenamingPlan.make m c.pool found).moved.map (·.2)) = .ok (pool, known)) :
    c.carryOut (RenamingPlan.make m c.pool found) =
      .ok (c.withIndices pool (planned c m found known)) := by
  obtain ⟨-, hcountPool, -⟩ := ConstantPool.appendTexts_eq_ok happend (knows_empty _)
    (by rwa [ConstantPool.count_replaceTexts])
  unfold ConstantPool.maxCount at hcount hcountPool
  have hplaces : ∀ e ∈ (RenamingPlan.make m c.pool found).moved, c.HasPlace e.1.location :=
    fun e he => (hasPlace_of_moved (by omega) hfound he).hasPlace
  rw [carryOut, happend]
  show Except.ok ({ c with pool := pool }.moveSites known _) = _
  rw [moveSites_eq (by omega) known _ hplaces]

/-- **No location is missed.** A plan that is made for a class and carried out site by site ends as
the plan carried out in two passes does, with the same class or with the same error. -/
theorem carryOutEach_eq {c : ClassFile} {m : NameMapper} {found : NameSites}
    (hcount : c.pool.count ≤ ConstantPool.maxCount) (hfound : c.nameSites = .ok found) :
    c.carryOutEach (RenamingPlan.make m c.pool found) =
      (c.carryOut (RenamingPlan.make m c.pool found)).mapError .refused := by
  have hsites : ∀ e ∈ (RenamingPlan.make m c.pool found).moved, c.HoldsSite e.1 := by
    intro e he
    refine hasPlace_of_moved ?_ hfound he
    unfold ConstantPool.maxCount at hcount
    omega
  rw [carryOutEach, ← withIndices_none, repointEach_withIndices hsites keepsOthers_replaceTexts
    (by rwa [ConstantPool.count_replaceTexts])]
  cases happend : (c.pool.replaceTexts (RenamingPlan.make m c.pool found).replaced).appendTexts {}
      ((RenamingPlan.make m c.pool found).moved.map (·.2)) with
  | error e =>
    rw [carryOut, happend]
    rfl
  | ok result =>
    rw [carryOut_of_appendTexts hcount hfound happend]
    rfl

end ClassFile

end JvmRelocation
