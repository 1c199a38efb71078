import JvmRelocation.Bytes.Decoder
import JvmRelocation.Proofs.Failure

/-!
# Codecs

A decoder and a writer form a codec on the values with some property if each undoes the other: what
the writer puts in front of any bytes is read back, and whatever is read is a value with the property
whose written form is what was consumed. Codecs compose along the sequencing of decoders, so a
format is checked production by production.
-/

namespace JvmRelocation.Decoder

/-! ## What a codec is -/

/-- A decoder and a writer that undo each other on the values with property `Valid`. -/
structure Codec {α : Type} (d : Decoder α) (write : α → Bytes) (Valid : α → Prop) : Prop where
  /-- Every written value is read back, whatever stands behind it. -/
  complete : ∀ a, Valid a → ∀ offset rest,
    d ⟨offset, write a ++ rest⟩ = .ok a ⟨offset + (write a).length, rest⟩
  /-- Whatever is read is the written form of the result. -/
  sound : ∀ c a c', d c = .ok a c' →
    Valid a ∧ c.rest = write a ++ c'.rest ∧ c'.offset = c.offset + (write a).length

namespace Codec

variable {α β : Type} {d : Decoder α} {write : α → Bytes} {Valid : α → Prop}
  {write' : β → Bytes} {Valid' : β → Prop}

/-- A codec may be told with another property that means the same, and with another writer that
writes the same for values with the property. -/
theorem congr {write₂ : α → Bytes} {Valid₂ : α → Prop} (h : Codec d write Valid)
    (hwrite : ∀ a, Valid a → write₂ a = write a) (hvalid : ∀ a, Valid₂ a ↔ Valid a) :
    Codec d write₂ Valid₂ where
  complete := by
    intro a ha offset rest
    rw [hvalid] at ha
    rw [hwrite a ha]
    exact h.complete a ha offset rest
  sound := by
    intro c a c' hread
    obtain ⟨ha, hrest, hoffset⟩ := h.sound _ _ _ hread
    rw [hvalid, hwrite a ha]
    exact ⟨ha, hrest, hoffset⟩

/-- One codec after another: `part` says which part of the whole the first one stands for. -/
theorem bind {f : α → Decoder β} {writeRest : β → Bytes} {ValidRest : β → Prop} (part : β → α)
    (hd : Codec d write Valid)
    (hf : ∀ a, Valid a → Codec (f a) writeRest fun b => ValidRest b ∧ part b = a) :
    Codec (d >>= f) (fun b => write (part b) ++ writeRest b)
      fun b => Valid (part b) ∧ ValidRest b where
  complete := by
    rintro b ⟨hfirst, hrest⟩ offset rest
    rw [List.append_assoc, bind_of_ok (hd.complete _ hfirst offset _),
      (hf _ hfirst).complete b ⟨hrest, rfl⟩]
    simp only [List.length_append, Nat.add_assoc]
  sound := by
    intro c b c' h
    obtain ⟨a, mid, hfirst, hthen⟩ := bind_ok h
    obtain ⟨hvalid, hread, hoffset⟩ := hd.sound _ _ _ hfirst
    -- the second decoder knows that its result has `a` as the part that was read first
    obtain ⟨⟨hvalidRest, rfl⟩, hreadRest, hoffsetRest⟩ := (hf a hvalid).sound _ _ _ hthen
    refine ⟨⟨hvalid, hvalidRest⟩, ?_, ?_⟩
    · rw [hread, hreadRest, List.append_assoc]
    · rw [hoffsetRest, hoffset, List.length_append, Nat.add_assoc]

/-- A decoder that refuses everything is a codec where no value has the property. -/
theorem refuse {e : FormatError} (h : ∀ b : β, ¬Valid' b) : Codec (throw e) write' Valid' where
  complete b hb := absurd hb (h b)
  sound := by
    intro c b c' hread
    have hrefused : EStateM.Result.error e c = .ok b c' := hread
    cases hrefused

/-- A value wrapped by a function is read by reading what is inside. -/
theorem map {f : α → β} (h : Codec d write Valid) (hwrite : ∀ a, write' (f a) = write a)
    (hvalid : ∀ b, Valid' b ↔ ∃ a, Valid a ∧ f a = b) :
    Codec (d >>= fun a => Pure.pure (f a)) write' Valid' where
  complete := by
    intro b hb offset rest
    obtain ⟨a, ha, rfl⟩ := (hvalid b).mp hb
    rw [hwrite, bind_of_ok (h.complete a ha offset rest)]
    rfl
  sound := by
    intro c b c' hread
    obtain ⟨a, mid, hd, hthen⟩ := bind_ok hread
    obtain ⟨rfl, rfl⟩ : f a = b ∧ mid = c' := by
      simpa [Pure.pure, EStateM.pure] using hthen
    obtain ⟨ha, hrest, hoffset⟩ := h.sound _ _ _ hd
    rw [hwrite]
    exact ⟨(hvalid _).mpr ⟨a, ha, rfl⟩, hrest, hoffset⟩

/-- Two values wrapped by a function are read one after the other. -/
theorem map₂ {γ : Type} {e : Decoder γ} {writeSecond : γ → Bytes} {ValidSecond : γ → Prop}
    {f : α → γ → β} (hd : Codec d write Valid) (he : Codec e writeSecond ValidSecond)
    (hwrite : ∀ a x, write' (f a x) = write a ++ writeSecond x)
    (hvalid : ∀ b, Valid' b ↔ ∃ a x, Valid a ∧ ValidSecond x ∧ f a x = b) :
    Codec (d >>= fun a => e >>= fun x => Pure.pure (f a x)) write' Valid' where
  complete := by
    intro b hb offset rest
    obtain ⟨a, x, ha, hx, rfl⟩ := (hvalid b).mp hb
    rw [hwrite, List.append_assoc, bind_of_ok (hd.complete a ha offset _),
      bind_of_ok (he.complete x hx _ rest), List.length_append, ← Nat.add_assoc]
    rfl
  sound := by
    intro c b c' hread
    obtain ⟨a, mid, hfirst, hthen⟩ := bind_ok hread
    obtain ⟨x, last, hsecond, hthen⟩ := bind_ok hthen
    obtain ⟨rfl, rfl⟩ : f a x = b ∧ last = c' := by
      simpa [Pure.pure, EStateM.pure] using hthen
    obtain ⟨ha, hrest, hoffset⟩ := hd.sound _ _ _ hfirst
    obtain ⟨hx, hrest', hoffset'⟩ := he.sound _ _ _ hsecond
    refine ⟨(hvalid _).mpr ⟨a, x, ha, hx, rfl⟩, ?_, ?_⟩
    · rw [hwrite, hrest, hrest', List.append_assoc]
    · rw [hwrite, hoffset', hoffset, List.length_append, Nat.add_assoc]

end Codec

/-! ## Words and blocks -/

theorem take_append (block : Bytes) (offset : Nat) (rest : Bytes) :
    take block.length ⟨offset, block ++ rest⟩ = .ok block ⟨offset + block.length, rest⟩ := by
  simp [take]

/-- A block of bytes of a known length. -/
theorem take_codec (n : Nat) : Codec (take n) id (·.length = n) where
  complete := by
    rintro block rfl offset rest
    exact take_append block offset rest
  sound := by
    intro c block c' h
    simp only [take] at h
    split at h
    · rename_i hlength
      obtain ⟨rfl, rfl⟩ : c.rest.take n = block ∧ ⟨c.offset + n, c.rest.drop n⟩ = c' := by
        simpa using h
      exact ⟨hlength, (List.take_append_drop n c.rest).symm, by simp only [id_eq, hlength]⟩
    · cases h

theorem byte_codec : Codec byte (fun b => [b]) fun _ => True where
  complete _ _ _ _ := rfl
  sound := by
    intro c a c' h
    obtain ⟨offset, rest⟩ := c
    cases rest with
    | nil => simp [byte] at h
    | cons b rest =>
      obtain ⟨rfl, rfl⟩ : b = a ∧ ⟨offset + 1, rest⟩ = c' := by simpa [byte] using h
      exact ⟨trivial, rfl, rfl⟩

theorem word16_codec : Codec word16 BigEndian.bytes16 fun _ => True where
  complete := by
    intro v _ offset rest
    -- the reader takes the two bytes in one step, so what it returns can be written down
    show EStateM.Result.ok (BigEndian.word16 (UInt8.ofNat (v.toNat / 256)) (UInt8.ofNat v.toNat))
      (⟨offset + 2, rest⟩ : Cursor) = _
    rw [BigEndian.word16_bytes16]
    rfl
  sound := by
    intro c v c' h
    obtain ⟨offset, rest⟩ := c
    match rest with
    | [] | [_] => simp [word16] at h
    | a :: b :: rest =>
      obtain ⟨rfl, rfl⟩ : BigEndian.word16 a b = v ∧ ⟨offset + 2, rest⟩ = c' := by
        simpa [word16] using h
      exact ⟨trivial, by simp, rfl⟩

theorem word32_codec : Codec word32 BigEndian.bytes32 fun _ => True where
  complete := by
    intro v _ offset rest
    show EStateM.Result.ok (BigEndian.word32 (UInt8.ofNat (v.toNat / 16777216))
      (UInt8.ofNat (v.toNat / 65536)) (UInt8.ofNat (v.toNat / 256)) (UInt8.ofNat v.toNat))
      (⟨offset + 4, rest⟩ : Cursor) = _
    rw [BigEndian.word32_bytes32]
    rfl
  sound := by
    intro c v c' h
    obtain ⟨offset, rest⟩ := c
    match rest with
    | [] | [_] | [_, _] | [_, _, _] => simp [word32] at h
    | a :: b :: x :: y :: rest =>
      obtain ⟨rfl, rfl⟩ : BigEndian.word32 a b x y = v ∧ ⟨offset + 4, rest⟩ = c' := by
        simpa [word32] using h
      exact ⟨trivial, by simp, rfl⟩

theorem word64_codec : Codec word64 BigEndian.bytes64 fun _ => True where
  complete := by
    intro v _ offset rest
    rw [word64, BigEndian.bytes64, List.append_assoc, bind_of_ok (word32_codec.complete _ trivial _ _),
      bind_of_ok (word32_codec.complete _ trivial _ _)]
    rw [BigEndian.word64_halves]
    rfl
  sound := by
    intro c v c' h
    obtain ⟨high, mid, hhigh, h⟩ := bind_ok h
    obtain ⟨low, last, hlow, h⟩ := bind_ok h
    obtain ⟨rfl, rfl⟩ : BigEndian.word64 high low = v ∧ last = c' := by
      simpa [Pure.pure, EStateM.pure] using h
    obtain ⟨-, hreadHigh, hoffsetHigh⟩ := word32_codec.sound _ _ _ hhigh
    obtain ⟨-, hreadLow, hoffsetLow⟩ := word32_codec.sound _ _ _ hlow
    refine ⟨trivial, ?_, ?_⟩
    · rw [BigEndian.bytes64_word64, hreadHigh, hreadLow, List.append_assoc]
    · simp only [hoffsetLow, hoffsetHigh, BigEndian.length_bytes32, BigEndian.length_bytes64]

/-! ## Repetition -/

section Times

variable {α : Type} {item : Decoder α} {write : α → Bytes} {Valid : α → Prop}

theorem timesFrom_complete (h : Codec item write Valid) (list done : List α)
    (hvalid : ∀ a ∈ list, Valid a) (offset : Nat) (rest : Bytes) :
    timesFrom item list.length done ⟨offset, list.flatMap write ++ rest⟩ =
      .ok (done.reverse ++ list) ⟨offset + (list.flatMap write).length, rest⟩ := by
  induction list generalizing done offset with
  | nil => simp [timesFrom, pure, EStateM.pure]
  | cons a list ih =>
    have hhead := h.complete a (hvalid a List.mem_cons_self) offset (list.flatMap write ++ rest)
    have htail := ih (a :: done) (fun b hb => hvalid b (List.mem_cons_of_mem a hb))
      (offset + (write a).length)
    rw [List.flatMap_cons, List.append_assoc, List.length_cons, timesFrom, bind_of_ok hhead, htail]
    simp only [List.reverse_cons, List.append_assoc, List.cons_append, List.nil_append,
      List.length_append, Nat.add_assoc]

theorem timesFrom_sound (h : Codec item write Valid) (n : Nat) (done list : List α)
    (c c' : Cursor) (hread : timesFrom item n done c = .ok list c') :
    ∃ more, list = done.reverse ++ more ∧ more.length = n ∧ (∀ a ∈ more, Valid a) ∧
      c.rest = more.flatMap write ++ c'.rest ∧
      c'.offset = c.offset + (more.flatMap write).length := by
  induction n generalizing done c with
  | zero =>
    obtain ⟨rfl, rfl⟩ : done.reverse = list ∧ c = c' := by
      simpa [timesFrom, pure, EStateM.pure] using hread
    exact ⟨[], by simp⟩
  | succ n ih =>
    obtain ⟨a, mid, hhead, htail⟩ := bind_ok hread
    obtain ⟨hvalid, hrest, hoffset⟩ := h.sound _ _ _ hhead
    obtain ⟨more, hlist, hlength, hall, hmore, hend⟩ := ih _ _ htail
    refine ⟨a :: more, ?_, ?_, ?_, ?_, ?_⟩
    · simp [hlist]
    · simp [hlength]
    · exact List.forall_mem_cons.mpr ⟨hvalid, hall⟩
    · rw [hrest, hmore, List.flatMap_cons, List.append_assoc]
    · rw [hend, hoffset, List.flatMap_cons, List.length_append, Nat.add_assoc]

/-- A known number of values one after another. -/
theorem times_codec (h : Codec item write Valid) (n : Nat) :
    Codec (times n item) (fun list => list.flatMap write)
      fun list => list.length = n ∧ ∀ a ∈ list, Valid a where
  complete := by
    rintro list ⟨rfl, hvalid⟩ offset rest
    exact timesFrom_complete h list [] hvalid offset rest
  sound := by
    intro c list c' hread
    obtain ⟨more, hlist, hlength, hall, hrest, hoffset⟩ := timesFrom_sound h n [] list c c' hread
    obtain rfl : list = more := by simpa using hlist
    exact ⟨⟨hlength, hall⟩, hrest, hoffset⟩

end Times

end JvmRelocation.Decoder
