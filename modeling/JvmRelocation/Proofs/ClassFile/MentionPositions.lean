import Mathlib.Data.List.Induction
import JvmRelocation.Proofs.ClassFile.LayoutFuel
import JvmRelocation.Proofs.ClassFile.PositionWalk
import JvmRelocation.Proofs.ClassFile.Repointing

/-!
# Positions of indices in a body

The places where a body mentions texts follow each other without overlap and lie inside the body, and
each holds the index that is mentioned. An index with which a text is used as a name may be written
over: the body is then walked to the same places, with the same uses, and only what was written over
is different. All of this holds at any depth, since a walk that adds up positions from slice to slice
notes the same places.
-/

namespace JvmRelocation

open BigEndian

namespace Layout

/-- Indices follow each other without overlap. -/
theorem mentionsAt_pairwise (offset : Nat) (l : Layout) :
    (mentionsAt offset l).Pairwise fun m m' => m.offset + 2 ≤ m'.offset := by
  induction l generalizing offset with
  | nil => exact .nil
  | cons part l ih =>
    cases part with
    | plain bytes => exact ih _
    | index use value => exact List.pairwise_cons.mpr ⟨fun m hm => le_offset_of_mem hm, ih _⟩

/-- An index lies inside the bytes of its layout. -/
theorem offset_add_two_le {l : Layout} {m : Mention} (h : m ∈ l.mentions) :
    m.offset + 2 ≤ l.toBytes.length := by
  rw [mentions_eq] at h
  obtain ⟨front, behind, hbytes, hoffset⟩ := toBytes_of_mention h
  rw [hbytes, hoffset, List.length_append, List.length_append, length_bytes16]
  omega

/-- A walk of a body notes what its layout mentions, or fails as the cut does. -/
theorem walk_eq_mentions (pool : ConstantPool) (name : String) (a : Attribute) {fuel : Nat}
    (h : a.body.size < fuel) : PositionWalk.walk pool fuel name a.body.toList 0 [] =
      (a.layout pool name).map mentions := by
  rw [PositionWalk.findsMentions_walk, a.cut_eq_layout pool name h]
  cases a.layout pool name with
  | error e => rfl
  | ok l => exact congrArg Except.ok (mentions_eq l).symm

end Layout

open Layout

/-! ## Writing over indices -/

/-- The attribute with indices in its body written over, one after another. -/
def Attribute.patchAll (patches : List (Nat × UInt16)) (a : Attribute) : Attribute :=
  patches.foldl (fun a p => a.patch p.1 p.2) a

/-- What is written to a place last, if anything is. -/
def lastPatch (patches : List (Nat × UInt16)) (place : Nat) : Option UInt16 :=
  patches.foldl (fun changes p => exchange changes p.1 p.2) (fun _ => none) place

theorem lastPatch_append (patches : List (Nat × UInt16)) (p : Nat × UInt16) (place : Nat) :
    lastPatch (patches ++ [p]) place =
      if place = p.1 then some p.2 else lastPatch patches place := by
  rw [lastPatch, List.foldl_append]
  rfl

theorem lastPatch_eq_none {patches : List (Nat × UInt16)} {place : Nat}
    (h : ∀ p ∈ patches, p.1 ≠ place) : lastPatch patches place = none := by
  induction patches using List.reverseRecOn with
  | nil => rfl
  | append_singleton patches p ih =>
    rw [List.forall_mem_append] at h
    rw [lastPatch_append, if_neg (Ne.symm (h.2 p List.mem_cons_self)), ih h.1]

/-- Every place holds an index that may be exchanged. -/
def Patchable (l : Layout) (patches : List (Nat × UInt16)) : Prop :=
  ∀ p ∈ patches, ∃ m ∈ l.mentions, m.offset = p.1 ∧ m.use ≠ .pinned

/-- Writing over indices exchanges them in the layout. -/
theorem Attribute.body_patchAll {a : Attribute} {l : Layout} {patches : List (Nat × UInt16)}
    (hbody : a.body.toList = l.toBytes) (h : Patchable l patches) :
    (a.patchAll patches).body.toList = (l.withIndices (lastPatch patches) 0).toBytes := by
  induction patches using List.reverseRecOn with
  | nil => rw [patchAll, List.foldl_nil, hbody, show lastPatch [] = fun _ => none from rfl,
      Layout.withIndices_none]
  | append_singleton patches p ih =>
    obtain ⟨hpatches, hp⟩ := List.forall_mem_append.mp h
    obtain ⟨m, hm, hoffset, huse⟩ := hp p List.mem_cons_self
    have hbefore := ih hpatches
    rw [mentions_eq] at hm
    have hpatch := patch_toBytes (lastPatch patches) hm huse _ _ p.2 rfl
    have hchanges : exchange (lastPatch patches) m.offset p.2 = lastPatch (patches ++ [p]) := by
      funext place
      rw [lastPatch_append, hoffset]
      rfl
    rw [hchanges, Nat.sub_zero, ← hbefore, hoffset] at hpatch
    rw [← hpatch, patchAll, List.foldl_append]
    simp [patchAll, patch, bytes16]

/-- A body whose indices have been written over is cut into the same parts with the new indices. -/
theorem Attribute.layout_patchAll {pool : ConstantPool} {name : String} {a : Attribute} {l : Layout}
    (h : a.layout pool name = .ok l) {patches : List (Nat × UInt16)} (hpatches : Patchable l patches) :
    (a.patchAll patches).layout pool name = .ok (l.withIndices (lastPatch patches) 0) := by
  have hbody := (steadyCut pool pool _).tiling h
  have hpatched := body_patchAll hbody hpatches
  have hsimilar := similar_withIndices (lastPatch patches) 0 l
  have hsize : (a.patchAll patches).body.size = a.body.size := by
    rw [← Array.length_toList, hpatched, hsimilar.length_toBytes, ← hbody, Array.length_toList]
  rw [layout, hpatched, hsize]
  exact (steadyCut pool pool _).recut h hsimilar rfl fun _ _ => rfl

/-- What is mentioned after indices have been written over. -/
theorem mentions_patchAll {l : Layout} {patches : List (Nat × UInt16)} (h : Patchable l patches) :
    (l.withIndices (lastPatch patches) 0).mentions = l.mentions.map fun m =>
      { m with index := (lastPatch patches m.offset).getD m.index } := by
  rw [mentions_eq, mentions_eq, mentionsAt_withIndices]
  refine List.map_congr_left fun m hm => ?_
  rw [Mention.withIndex]
  split
  case isFalse => rfl
  case isTrue hpinned =>
    -- no other index stands at the place of one that is pinned
    have hnone : lastPatch patches m.offset = none := by
      refine lastPatch_eq_none fun p hp hplace => ?_
      obtain ⟨m', hm', hoffset, huse⟩ := h p hp
      rw [mentions_eq] at hm'
      obtain rfl := mention_unique hm' hm (hoffset.trans hplace)
      exact huse hpinned
    rw [hnone]
    rfl

/-- **Positions are sound and stable.** Where the body of an attribute is cut, at any depth, a walk
that adds up positions from slice to slice notes the same indices. They follow each other without
overlap, lie inside the body, and stand where they are noted. Writing over any of those that stand for
names leaves a body that is cut too, with the same places and uses: only the indices that were written
over are the new ones. -/
theorem Attribute.positions_sound_and_stable {pool : ConstantPool} {name : String} {a : Attribute}
    {l : Layout} (h : a.layout pool name = .ok l) :
    (∀ (b : Attribute) (fuel : Nat), b.body.size < fuel →
      PositionWalk.walk pool fuel name b.body.toList 0 [] = (b.layout pool name).map mentions) ∧
    l.mentions.Pairwise (fun m m' => m.offset + 2 ≤ m'.offset) ∧
    (∀ m ∈ l.mentions, m.offset + 2 ≤ a.body.size ∧ a.indexAt m.offset = some m.index) ∧
    ∀ patches, Patchable l patches →
      ∃ l', (a.patchAll patches).layout pool name = .ok l' ∧
        l'.mentions = l.mentions.map fun m =>
          { m with index := (lastPatch patches m.offset).getD m.index } := by
  have hbody := (steadyCut pool pool _).tiling h
  refine ⟨fun b fuel => walk_eq_mentions pool name b, ?_, fun m hm => ⟨?_, ?_⟩, ?_⟩
  · rw [mentions_eq]
    exact mentionsAt_pairwise 0 l
  · rw [← Array.length_toList, hbody]
    exact offset_add_two_le hm
  · rw [mentions_eq] at hm
    exact indexAt_of_mention hbody hm
  · intro patches hpatches
    exact ⟨_, layout_patchAll h hpatches, mentions_patchAll hpatches⟩

/-- A pool with the name of an attribute that code has inside. -/
def nestedNamePool : ConstantPool :=
  ⟨#[.unusable, .utf8 (ModifiedUtf8.encode "LocalVariableTable")]⟩

/-- Code of one instruction with a table of one local variable. -/
def nestedTableSample : Attribute :=
  ⟨7, #[0, 1, 0, 1, 0, 0, 0, 1, 0xb1, 0, 0, 0, 1, 0, 1, 0, 0, 0, 12, 0, 1, 0, 0, 0, 1, 0, 5, 0, 6, 0, 0]⟩

theorem Attribute.positions_sound_and_stable_nestedTable :
    ∃ l l', nestedTableSample.layout nestedNamePool "Code" = .ok l ∧
      ⟨27, 6, .name .descriptor⟩ ∈ l.mentions ∧ nestedTableSample.indexAt 27 = some 6 ∧
      (nestedTableSample.patchAll [(27, 0x109)]).layout nestedNamePool "Code" = .ok l' ∧
      ⟨27, 0x109, .name .descriptor⟩ ∈ l'.mentions ∧
      l'.mentions.map (·.offset) = l.mentions.map (·.offset) := by
  have hcheck : ((nestedTableSample.layout nestedNamePool "Code").toOption.any fun l =>
      l.mentions.contains ⟨27, 6, .name .descriptor⟩) = true := by
    decide +kernel
  obtain ⟨l, hlayout, hm⟩ := exists_ok_of_any hcheck
  have hm := List.contains_iff_mem.mp hm
  obtain ⟨-, -, hsound, hstable⟩ := Attribute.positions_sound_and_stable hlayout
  have hpatches : Patchable l [(27, 0x109)] := by
    intro p hp
    obtain rfl := List.mem_singleton.mp hp
    exact ⟨_, hm, rfl, by decide⟩
  obtain ⟨l', hlayout', hmentions⟩ := hstable _ hpatches
  refine ⟨l, l', hlayout, hm, (hsound _ hm).2, hlayout', ?_, ?_⟩
  · rw [hmentions]
    exact List.mem_map.mpr ⟨_, hm, rfl⟩
  · rw [hmentions, List.map_map]
    rfl

end JvmRelocation
