import Mathlib.Data.List.Nodup
import JvmRelocation.Proofs.Bytes.Codec
import JvmRelocation.Proofs.Name.SignatureBytes
import JvmRelocation.Proofs.Relocation.AnyStores
import JvmRelocation.Relocation.Tag

/-!
# Tags from content

The stream that a derived tag digests has one record for each class file: the path up to a zero byte,
the length of the content, the content. A path has no zero byte in it and a length has eight bytes,
so the first record of a stream can be told from the rest, whatever the contents look like, and by
induction the stream tells all its files. The digits of the digest are letters and digits, so the
tag they make passes its check.
-/

namespace JvmRelocation

open StoreProgram

/-! ## Records -/

/-- A list is cut in one way only in front of the first of some marks. -/
theorem append_mark_inj {α : Type} {mark : α} {front front' rest rest' : List α}
    (h : mark ∉ front) (h' : mark ∉ front')
    (heq : front ++ mark :: rest = front' ++ mark :: rest') : front = front' ∧ rest = rest' := by
  induction front generalizing front' with
  | nil =>
    cases front' with
    | nil => exact ⟨rfl, (List.cons.inj heq).2⟩
    | cons a front' =>
      obtain ⟨rfl, -⟩ := List.cons.inj heq
      exact absurd List.mem_cons_self h'
  | cons a front ih =>
    cases front' with
    | nil =>
      obtain ⟨rfl, -⟩ := List.cons.inj heq
      exact absurd List.mem_cons_self h
    | cons a' front' =>
      obtain ⟨rfl, htail⟩ := List.cons.inj heq
      rw [List.mem_cons, not_or] at h h'
      obtain ⟨rfl, rfl⟩ := ih h.2 h'.2 htail
      exact ⟨rfl, rfl⟩

/-- The zero character. -/
def zeroChar : Char := Char.ofNat 0

/-- Only the zero character has a zero byte. -/
theorem zero_not_mem_utf8 {text : List Char} (h : zeroChar ∉ text) : 0 ∉ utf8 text := by
  intro hmem
  obtain ⟨c, hc, hbyte⟩ := List.mem_flatMap.mp hmem
  have hzero : (0 : UInt8) = ascii zeroChar := by decide
  rw [(eq_ascii_iff hbyte (by decide)).mp hzero] at hc
  exact h hc

theorem utf8_inj {text text' : List Char} : utf8 text = utf8 text' ↔ text = text' := by
  refine ⟨fun h => ?_, fun h => h ▸ rfl⟩
  have hbytes : (String.ofList text).toByteArray = (String.ofList text').toByteArray := by
    rw [String.toByteArray_ofList, String.toByteArray_ofList, List.utf8Encode, List.utf8Encode]
    exact congrArg _ h
  exact String.ofList_injective (String.toByteArray_inj.mp hbytes)

/-- A length is told by its eight bytes, whatever stands behind them. -/
theorem bytes64_append_inj {v v' : UInt64} {rest rest' : Bytes}
    (h : BigEndian.bytes64 v ++ rest = BigEndian.bytes64 v' ++ rest') : v = v' ∧ rest = rest' := by
  have hread := Decoder.word64_codec.complete v trivial 0 rest
  rw [h, Decoder.word64_codec.complete v' trivial 0 rest'] at hread
  cases hread
  exact ⟨rfl, rfl⟩

/-- What the record of a file asks of it: its path has no zero character, and its length fits in 64
bits. No content that is held in memory is longer than that. -/
def Recordable (file : String × Bytes) : Prop :=
  zeroChar ∉ file.1.toList ∧ file.2.length < UInt64.size

instance (file : String × Bytes) : Decidable (Recordable file) :=
  inferInstanceAs (Decidable (_ ∧ _))

/-- A record can be told from what stands behind it. -/
theorem tagRecord_append_inj {file file' : String × Bytes} (h : Recordable file)
    (h' : Recordable file') {rest rest' : Bytes}
    (heq : tagRecord file.1 file.2 ++ rest = tagRecord file'.1 file'.2 ++ rest') :
    file = file' ∧ rest = rest' := by
  simp only [tagRecord, List.append_assoc, List.cons_append] at heq
  obtain ⟨hpath, hbehind⟩ := append_mark_inj (zero_not_mem_utf8 h.1) (zero_not_mem_utf8 h'.1) heq
  obtain ⟨hlength, hcontents⟩ := bytes64_append_inj hbehind
  have hlengths : file.2.length = file'.2.length := by
    have htoNat := congrArg UInt64.toNat hlength
    rwa [UInt64.toNat_ofNat_of_lt' h.2, UInt64.toNat_ofNat_of_lt' h'.2] at htoNat
  obtain ⟨hcontent, hrest⟩ := List.append_inj hcontents hlengths
  exact ⟨Prod.ext (String.toList_inj.mp (utf8_inj.mp hpath)) hcontent, hrest⟩

/-- **A stream tells its files.** -/
theorem tagStream_inj {files files' : List (String × Bytes)} (h : ∀ file ∈ files, Recordable file)
    (h' : ∀ file ∈ files', Recordable file) : tagStream files = tagStream files' ↔ files = files' := by
  refine ⟨fun heq => ?_, fun heq => heq ▸ rfl⟩
  have hne (file : String × Bytes) (rest : Bytes) : tagRecord file.1 file.2 ++ rest ≠ [] := by
    simp [tagRecord]
  induction files generalizing files' with
  | nil =>
    cases files' with
    | nil => rfl
    | cons file' files' => exact absurd heq.symm (hne file' (tagStream files'))
  | cons file files ih =>
    cases files' with
    | nil => exact absurd heq (hne file (tagStream files))
    | cons file' files' =>
      rw [List.forall_mem_cons] at h h'
      have hrecords : tagRecord file.1 file.2 ++ tagStream files =
          tagRecord file'.1 file'.2 ++ tagStream files' := heq
      obtain ⟨rfl, hrest⟩ := tagRecord_append_inj h.1 h'.1 hrecords
      rw [ih h.2 h'.2 hrest]

/-! ## Class files of a store in memory -/

namespace MemoryStore

/-- The class files with their paths, in order. -/
def classFiles (s : MemoryStore) : List (String × Bytes) :=
  s.toList.filter fun file => isClassPath file.1

theorem classFiles_paths (s : MemoryStore) : s.classFiles.map (·.1) = s.classPaths := by
  rw [classPaths, paths, ← Std.TreeMap.map_fst_toList_eq_keys, List.filter_map]
  rfl

theorem mem_classFiles {s : MemoryStore} {path : String} {bytes : Bytes} :
    (path, bytes) ∈ s.classFiles ↔ isClassPath path = true ∧ s.get? path = some bytes := by
  rw [classFiles, List.mem_filter, toList, Std.TreeMap.mem_toList_iff_getElem?_eq_some, and_comm,
    get?, Std.TreeMap.get?_eq_getElem?]

theorem classFiles_sorted (s : MemoryStore) :
    s.classFiles.Pairwise fun file file' => compare file.1 file'.1 = .lt :=
  Std.TreeMap.ordered_keys_toList.filter _

theorem classFiles_nodup (s : MemoryStore) : s.classFiles.Nodup :=
  List.Nodup.of_map (·.1) (s.classFiles_paths ▸ s.classPaths_nodup)

/-- Stores have the same class files if the same is kept at every path of one. -/
theorem classFiles_eq_iff {s s' : MemoryStore} : s.classFiles = s'.classFiles ↔
    ∀ path, isClassPath path = true → s.get? path = s'.get? path := by
  constructor
  · intro heq path hpath
    ext bytes
    have hmem : (path, bytes) ∈ s.classFiles ↔ (path, bytes) ∈ s'.classFiles := by rw [heq]
    simpa only [mem_classFiles, hpath, true_and] using hmem
  · intro hsame
    refine List.Perm.eq_of_pairwise ?_ s.classFiles_sorted s'.classFiles_sorted ?_
    · intro a b _ _ hlt hgt
      exact absurd hgt (Std.OrientedCmp.not_lt_of_lt hlt)
    · refine (List.perm_ext_iff_of_nodup s.classFiles_nodup s'.classFiles_nodup).mpr ?_
      rintro ⟨path, bytes⟩
      rw [mem_classFiles, mem_classFiles]
      exact and_congr_right fun hpath => by rw [hsame path hpath]

/-- A file that is no class file makes no difference. -/
theorem classFiles_insert (s : MemoryStore) {path : String} (h : isClassPath path = false)
    (bytes : Bytes) : (s.insert path bytes).classFiles = s.classFiles := by
  refine classFiles_eq_iff.mpr fun path' hpath' => ?_
  have hne : path ≠ path' := by
    rintro rfl
    rw [h] at hpath'
    cases hpath'
  rw [get?_insert, if_neg hne]

/-- What the stream asks of a store: each of its class files can be recorded. -/
def Streamable (s : MemoryStore) : Prop :=
  ∀ file ∈ s.classFiles, Recordable file

instance (s : MemoryStore) : Decidable s.Streamable :=
  inferInstanceAs (Decidable (∀ file ∈ s.classFiles, Recordable file))

end MemoryStore

/-! ## The stream of a store -/

/-- The stream that is digested for the class files of the input store. -/
def contentStream : StoreProgram Bytes := do
  let paths ← listInput .discovery
  let files ← readInputs .discovery [] paths
  return tagStream files

theorem StoreProgram.bind_bind {α β γ : Type} (p : StoreProgram α) (f : α → StoreProgram β)
    (g : β → StoreProgram γ) : p >>= f >>= g = p >>= fun a => f a >>= g := by
  show (p.andThen f).andThen g = p.andThen fun a => (f a).andThen g
  induction p with
  | done a => rfl
  | fail e => rfl
  | list phase next ih => simp only [andThen, ih]
  | read phase side path next ih => simp only [andThen, ih]
  | write phase path bytes next ih => simp only [andThen, ih]

/-- A tag is derived from the stream and from nothing else. -/
theorem deriveTag_eq : deriveTag = do return tagOfStream (← contentStream) := by
  rw [contentStream, bind_bind]
  simp only [bind_bind]
  rfl

theorem yields_readInputs {input : MemoryStore} {files : List (String × Bytes)}
    (h : ∀ file ∈ files, input.get? file.1 = some file.2) (output : MemoryStore) (phase : Phase)
    (before : List (String × Bytes)) :
    (readInputs phase before (files.map (·.1))).Yields input output (before.reverse ++ files)
      output := by
  induction files generalizing before with
  | nil =>
    rw [List.append_nil]
    exact yields_pure.mpr ⟨rfl, rfl⟩
  | cons file files ih =>
    rw [List.forall_mem_cons] at h
    have hrest := ih h.2 (file :: before)
    rw [List.reverse_cons, List.append_assoc, List.singleton_append] at hrest
    exact yields_bind.mpr ⟨file.2, output, yields_readFrom.mpr ⟨h.1, rfl⟩, hrest⟩

/-- The stream of a store in memory is that of its class files, in order. -/
theorem yields_contentStream (input output : MemoryStore) :
    contentStream.Yields input output (tagStream input.classFiles) output := by
  refine yields_bind.mpr ⟨input.classPaths, output, yields_listInput.mpr ⟨rfl, rfl⟩, ?_⟩
  have hfiles : ∀ file ∈ input.classFiles, input.get? file.1 = some file.2 :=
    fun file hfile => (MemoryStore.mem_classFiles.mp hfile).2
  have hread := yields_readInputs hfiles output .discovery []
  rw [MemoryStore.classFiles_paths] at hread
  exact yields_bind.mpr ⟨input.classFiles, output, hread, yields_pure.mpr ⟨rfl, rfl⟩⟩

/-! ## The derived tag -/

/-- The digits in base sixteen, lower case. -/
def hexDigits : List Char := "0123456789abcdef".toList

theorem Sha256.length_digest (message : Bytes) : (digest message).length = 32 := by
  rw [digest, State.bytes]
  simp

theorem mem_byteDigits {b : UInt8} {c : Char} (h : c ∈ byteDigits b) : c ∈ hexDigits := by
  have hdigit : ∀ n : Fin 16, Nat.digitChar n ∈ hexDigits := by decide
  have hb := b.toNat_lt
  simp only [byteDigits, List.mem_cons, List.not_mem_nil, or_false] at h
  rcases h with rfl | rfl
  · exact hdigit ⟨b.toNat / 16, by omega⟩
  · exact hdigit ⟨b.toNat % 16, by omega⟩

/-- The digits of some bytes, two for each. -/
theorem length_byteDigits (bytes : Bytes) : (bytes.flatMap byteDigits).length = 2 * bytes.length := by
  induction bytes with
  | nil => rfl
  | cons b bytes ih =>
    rw [List.flatMap_cons, List.length_append, ih, List.length_cons]
    simp only [byteDigits, List.length_cons, List.length_nil]
    omega

/-- A derived tag is `v` and sixteen digits. -/
theorem tagOfStream_eq (stream : Bytes) :
    ∃ digits, tagOfStream stream = String.ofList ('v' :: digits) ∧
      digits.length = derivedTagDigits ∧ ∀ c ∈ digits, c ∈ hexDigits := by
  refine ⟨_, rfl, ?_, fun c hc => ?_⟩
  · rw [List.length_take, length_byteDigits, Sha256.length_digest]
    rfl
  · obtain ⟨b, -, hdigit⟩ := List.mem_flatMap.mp (List.mem_of_mem_take hc)
    exact mem_byteDigits hdigit

/-- A tag of `v` and digits is usable. -/
theorem validateTag_digits {digits : List Char} (h : ∀ c ∈ digits, c ∈ hexDigits) :
    validateTag (String.ofList ('v' :: digits)) = .ok () := by
  have hstart {text : String} (htext : text.toList.head? ≠ some 'v') :
      String.ofList ('v' :: digits) ≠ text := by
    rintro rfl
    exact htext (by rw [String.toList_ofList, List.head?_cons])
  have hallowed : ∀ c ∈ 'v' :: digits, isForbiddenInTag c = false := by
    have hdigits : hexDigits.all (fun c => !isForbiddenInTag c) = true := by decide
    rw [List.forall_mem_cons]
    exact ⟨by decide, fun c hc => by simpa using List.all_eq_true.mp hdigits c (h c hc)⟩
  have hnone : (String.ofList ('v' :: digits)).toList.find? isForbiddenInTag = none := by
    rw [String.toList_ofList, List.find?_eq_none]
    exact fun c hc => by simp [hallowed c hc]
  rw [validateTag, tagFault?, if_neg (hstart (by decide)), if_neg, hnone]
  · rfl
  · rw [Bool.or_eq_true, decide_eq_true_eq, decide_eq_true_eq, not_or]
    exact ⟨hstart (by decide), hstart (by decide)⟩

theorem ensures_readInputs (phase : Phase) (before : List (String × Bytes)) (paths : List String) :
    (readInputs phase before paths).Ensures (fun _ => False) (fun _ => False) fun _ => True := by
  induction paths generalizing before with
  | nil => exact ensures_pure trivial
  | cons path paths ih => exact (ensures_readFrom phase .input path).bind fun bytes _ => ih _

/-- Deriving a tag writes nothing, never fails by itself, and ends with a usable tag. -/
theorem ensures_deriveTag : deriveTag.Ensures (fun _ => False) (fun _ => False) fun tag =>
    validateTag tag = .ok () := by
  refine (ensures_listInput .discovery).bind fun paths _ => ?_
  refine (ensures_readInputs .discovery [] paths).bind fun files _ => ensures_pure ?_
  obtain ⟨digits, htag, -, hdigits⟩ := tagOfStream_eq (tagStream files)
  rw [htag]
  exact validateTag_digits hdigits

/-- **The content tag.** A tag is derived from a stream alone. The streams of two stores in memory are
the same exactly if the stores keep the same at the path of every class file, whatever else there is
in them. On any stores, a tag is derived unless a call fails, and the tag is usable. -/
theorem contentTag_unambiguous {input input' : MemoryStore} (h : input.Streamable)
    (h' : input'.Streamable) :
    (deriveTag = do return tagOfStream (← contentStream)) ∧
    (∀ output, ∃ stream stream',
      contentStream.Yields input output stream output ∧
      contentStream.Yields input' output stream' output ∧
      (stream = stream' ↔ ∀ path, isClassPath path = true → input.get? path = input'.get? path) ∧
      ∀ path bytes, isClassPath path = false →
        contentStream.Yields (input.insert path bytes) output stream output) ∧
    ∀ (σ : Type) (anyInput anyOutput : ClassStore (StateM σ)) (s : σ),
      deriveTag.CallsSucceed anyInput anyOutput s →
      ∃ tag s', deriveTag.run (m := StateM σ) anyInput anyOutput s = (.ok tag, s') ∧
        validateTag tag = .ok () := by
  refine ⟨deriveTag_eq, fun output => ?_, fun σ anyInput anyOutput s => ?_⟩
  · refine ⟨_, _, yields_contentStream input output, yields_contentStream input' output, ?_, ?_⟩
    · rw [tagStream_inj h h', MemoryStore.classFiles_eq_iff]
    · intro path bytes hpath
      rw [← input.classFiles_insert hpath bytes]
      exact yields_contentStream (input.insert path bytes) output
  · exact ensures_deriveTag.exists_result

/-- Two class files without content. -/
def emptyFilesSample : MemoryStore :=
  .ofList [("a.class", []), ("b.class", [])]

/-- One class file, whose content looks like the record of another one. -/
def imitatingSample : MemoryStore :=
  .ofList [("a.class", tagRecord "b.class" [])]

theorem contentTag_unambiguous_imitating :
    emptyFilesSample.Streamable ∧ imitatingSample.Streamable ∧
    (∃ stream stream', contentStream.Yields emptyFilesSample .empty stream .empty ∧
      contentStream.Yields imitatingSample .empty stream' .empty ∧ stream ≠ stream' ∧
      contentStream.Yields (emptyFilesSample.insert "README.md" [0]) .empty stream .empty) ∧
    ∃ tag stores, deriveTag.run (m := StateM (MemoryStore × MemoryStore)) MemoryStore.access.onFirst
        MemoryStore.access.onSecond (imitatingSample, .empty) = (.ok tag, stores) ∧
      validateTag tag = .ok () := by
  have h : emptyFilesSample.Streamable := by decide +kernel
  have h' : imitatingSample.Streamable := by decide +kernel
  obtain ⟨-, hstreams, htag⟩ := contentTag_unambiguous h h'
  obtain ⟨stream, stream', hyields, hyields', hsame, hother⟩ := hstreams .empty
  refine ⟨h, h', ⟨stream, stream', hyields, hyields', ?_, ?_⟩, htag _ _ _ _ ?_⟩
  · rw [ne_eq, hsame]
    intro hkept
    have hdiffers : emptyFilesSample.get? "b.class" ≠ imitatingSample.get? "b.class" := by
      decide +kernel
    exact hdiffers (hkept "b.class" (by decide))
  · exact hother "README.md" [0] (by decide)
  · have hderived : deriveTag.Yields imitatingSample .empty (tagOfStream stream') .empty := by
      rw [deriveTag_eq]
      exact yields_bind.mpr ⟨stream', .empty, hyields', yields_pure.mpr ⟨rfl, rfl⟩⟩
    obtain ⟨stores, hrun⟩ := hderived.exists_run
    exact callsSucceed_of_result hrun

end JvmRelocation
