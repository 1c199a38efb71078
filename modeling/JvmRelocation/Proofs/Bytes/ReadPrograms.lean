import JvmRelocation.ClassFile.Parser
import JvmRelocation.Proofs.Bytes.Codec

/-!
# Decoders as programs of reads

A decoder that does nothing with its cursor but read blocks at it is a program: it is done, refuses,
or asks for a number of bytes and goes on with them. What such a decoder makes of a buffer depends on
the bytes it consumes and on nothing behind them, and when some of those are missing the first read
that reaches the end says so. The cursor stays inside the buffer, and a read that fails leaves it
where it was.
-/

namespace JvmRelocation

/-- A program of reads. -/
inductive ReadProgram (α : Type) where
  | done (a : α)
  | refuse (e : FormatError)
  | read (n : Nat) (next : Bytes → ReadProgram α)

/-- A read that a program made: the cursor before and after it, how many bytes it asked for, and
whether it got them. -/
structure ReadStep where
  before : Cursor
  size : Nat
  after : Cursor
  succeeded : Bool
deriving DecidableEq, Repr

/-- A place in the given buffer. -/
def Cursor.Inside (buffer : Bytes) (c : Cursor) : Prop :=
  c.offset ≤ buffer.length ∧ c.rest = buffer.drop c.offset

namespace ReadProgram

variable {α β : Type}

/-- The decoder that carries the program out. -/
def run : ReadProgram α → Decoder α
  | done a => pure a
  | refuse e => throw e
  | read n next => Decoder.take n >>= fun block => (next block).run

/-- The reads that the program makes from a cursor on, in order. -/
def steps : ReadProgram α → Cursor → List ReadStep
  | done _, _ => []
  | refuse _, _ => []
  | read n next, c =>
    match Decoder.take n c with
    | .ok block c' => ⟨c, n, c', true⟩ :: (next block).steps c'
    | .error _ c' => [⟨c, n, c', false⟩]

/-- One program after another. -/
def bind : ReadProgram α → (α → ReadProgram β) → ReadProgram β
  | done a, f => f a
  | refuse e, _ => refuse e
  | read n next, f => read n fun block => (next block).bind f

theorem run_bind (p : ReadProgram α) (f : α → ReadProgram β) :
    (p.bind f).run = p.run >>= fun a => (f a).run := by
  induction p with
  | done a => rfl
  | refuse e => rfl
  | read n next ih => simp only [bind, run, ih, bind_assoc]

/-! ## What a read does -/

theorem take_cases (n : Nat) (c : Cursor) :
    (n ≤ c.rest.length ∧ Decoder.take n c = .ok (c.rest.take n) ⟨c.offset + n, c.rest.drop n⟩) ∨
      c.rest.length < n ∧ Decoder.take n c = .error (.truncated c.offset n c.size) c := by
  have hlength : (c.rest.take n).length = n ↔ n ≤ c.rest.length := by
    rw [List.length_take]
    omega
  rcases Nat.lt_or_ge c.rest.length n with h | h
  · exact .inr ⟨h, if_neg fun heq => Nat.not_le.mpr h (hlength.mp heq)⟩
  · exact .inl ⟨h, if_pos (hlength.mpr h)⟩

theorem inside_advance {buffer : Bytes} {c : Cursor} (h : c.Inside buffer) {n : Nat}
    (hn : n ≤ c.rest.length) : Cursor.Inside buffer ⟨c.offset + n, c.rest.drop n⟩ := by
  obtain ⟨hoffset, hrest⟩ := h
  rw [hrest, List.length_drop] at hn
  exact ⟨by simp only; omega, by rw [hrest, List.drop_drop]⟩

/-! ## What a program does -/

/-- Every read starts and ends inside the buffer, and one that fails ends where it starts. -/
theorem steps_inside (p : ReadProgram α) {buffer : Bytes} {c : Cursor} (h : c.Inside buffer) :
    ∀ r ∈ p.steps c, r.before.Inside buffer ∧ r.after.Inside buffer ∧
      (r.succeeded = false → r.after = r.before) := by
  induction p generalizing c with
  | done a => simp [steps]
  | refuse e => simp [steps]
  | read n next ih =>
    rcases take_cases n c with ⟨hn, htake⟩ | ⟨-, htake⟩
    · have hafter := inside_advance h hn
      simp only [steps, htake, List.forall_mem_cons]
      exact ⟨⟨h, hafter, by simp⟩, ih _ hafter⟩
    · simp only [steps, htake, List.forall_mem_cons]
      exact ⟨⟨h, h, by simp⟩, by simp⟩

/-- A program that comes to its end has consumed some bytes. It would consume them in front of
anything else, and in any proper front of them a read finds fewer bytes than it asks for. -/
theorem run_ok (p : ReadProgram α) {c c' : Cursor} {a : α} (h : p.run c = .ok a c') :
    ∃ used, c.rest = used ++ c'.rest ∧ c'.offset = c.offset + used.length ∧
      (∀ rest, p.run ⟨c.offset, used ++ rest⟩ = .ok a ⟨c'.offset, rest⟩) ∧
      ∀ front missing, used = front ++ missing → missing ≠ [] → ∃ offset n c'',
        p.run ⟨c.offset, front⟩ = .error (.truncated offset n (c.offset + front.length)) c'' ∧
          offset ≤ c.offset + front.length ∧ c.offset + front.length < offset + n := by
  induction p generalizing c with
  | done b =>
    obtain ⟨rfl, rfl⟩ : b = a ∧ c = c' := by simpa [run, pure, EStateM.pure] using h
    refine ⟨[], rfl, rfl, fun _ => rfl, fun front missing hused hmissing => ?_⟩
    exact absurd (List.append_eq_nil_iff.mp hused.symm).2 hmissing
  | refuse e =>
    have hrefused : EStateM.Result.error e c = .ok a c' := h
    cases hrefused
  | read n next ih =>
    obtain ⟨block, mid, htake, hnext⟩ := bind_ok h
    obtain ⟨rfl, hblock, hmid⟩ := (Decoder.take_codec n).sound _ _ _ htake
    obtain ⟨used, hrest, hoffset, hbehind, hfront⟩ := ih block hnext
    rw [id_eq] at hblock hmid
    have hread (rest : Bytes) : Decoder.take block.length ⟨c.offset, block ++ rest⟩ =
        .ok block ⟨mid.offset, rest⟩ := by
      rw [hmid]
      exact Decoder.take_append block c.offset rest
    refine ⟨block ++ used, ?_, ?_, fun rest => ?_, fun front missing hused hmissing => ?_⟩
    · rw [hblock, hrest, List.append_assoc]
    · rw [hoffset, hmid, List.length_append, Nat.add_assoc]
    · rw [List.append_assoc]
      exact (bind_of_ok (hread _)).trans (hbehind rest)
    · -- either the front ends inside the block that is read first, or behind it
      by_cases hlength : front.length < block.length
      · refine ⟨c.offset, block.length, ⟨c.offset, front⟩, ?_, by omega, by omega⟩
        have htake := (take_cases block.length ⟨c.offset, front⟩).resolve_left
          fun hfits => Nat.not_le.mpr hlength hfits.1
        simp only [run, Bind.bind, EStateM.bind, htake.2]
        rfl
      · obtain ⟨front', rfl, hused'⟩ : ∃ front', front = block ++ front' ∧
            used = front' ++ missing := by
          rcases List.append_eq_append_iff.mp hused with ⟨more, hfront, hmissing⟩ | ⟨more, hwhole, hmore⟩
          · exact ⟨more, hfront, hmissing⟩
          · obtain rfl : more = [] := by
              rw [hwhole, List.length_append] at hlength
              exact List.length_eq_zero_iff.mp (by omega)
            exact ⟨[], by rw [hwhole, List.append_nil, List.append_nil], hmore.symm⟩
        obtain ⟨offset, n, c'', hrun, hle, hlt⟩ := hfront front' missing hused' hmissing
        rw [List.length_append, ← Nat.add_assoc, ← hmid]
        exact ⟨offset, n, c'', (bind_of_ok (hread _)).trans hrun, hle, hlt⟩

end ReadProgram

/-! ## Which decoders are programs -/

namespace Decoder

variable {α β γ : Type}

/-- The decoder does nothing with its cursor but read blocks at it. -/
def IsProgram (d : Decoder α) : Prop :=
  ∃ p : ReadProgram α, p.run = d

namespace IsProgram

theorem pure (a : α) : IsProgram (Pure.pure a) :=
  ⟨.done a, rfl⟩

theorem throw (e : FormatError) : IsProgram (MonadExcept.throw e : Decoder α) :=
  ⟨.refuse e, rfl⟩

theorem bind {d : Decoder α} {f : α → Decoder β} (hd : IsProgram d) (hf : ∀ a, IsProgram (f a)) :
    IsProgram (d >>= f) := by
  obtain ⟨p, rfl⟩ := hd
  choose q hq using hf
  exact ⟨p.bind q, by rw [ReadProgram.run_bind, funext hq]⟩

theorem map {d : Decoder α} (hd : IsProgram d) (f : α → β) :
    IsProgram (d >>= fun a => Pure.pure (f a)) :=
  hd.bind fun a => pure (f a)

theorem map₂ {d : Decoder α} {e : Decoder β} (hd : IsProgram d) (he : IsProgram e)
    (f : α → β → γ) : IsProgram (d >>= fun a => e >>= fun b => Pure.pure (f a b)) :=
  hd.bind fun a => he.map (f a)

/-- A decoder that refuses what another one has read, or goes on. -/
theorem guard {p : Prop} [Decidable p] {e : FormatError} {d : Decoder α} (hd : IsProgram d) :
    IsProgram (if p then MonadExcept.throw e else d) := by
  split
  · exact throw e
  · exact hd

protected theorem take (n : Nat) : IsProgram (Decoder.take n) :=
  ⟨.read n .done, bind_pure _⟩

protected theorem byte : IsProgram Decoder.byte := by
  refine ⟨.read 1 fun block => .done (block.getD 0 0), funext fun c => ?_⟩
  obtain ⟨offset, _ | ⟨a, rest⟩⟩ := c <;> rfl

protected theorem word16 : IsProgram Decoder.word16 := by
  refine ⟨.read 2 fun block => .done (BigEndian.word16 (block.getD 0 0) (block.getD 1 0)),
    funext fun c => ?_⟩
  obtain ⟨offset, _ | ⟨a, _ | ⟨b, rest⟩⟩⟩ := c <;> rfl

protected theorem word32 : IsProgram Decoder.word32 := by
  refine ⟨.read 4 fun block => .done (BigEndian.word32 (block.getD 0 0) (block.getD 1 0)
    (block.getD 2 0) (block.getD 3 0)), funext fun c => ?_⟩
  obtain ⟨offset, _ | ⟨a, _ | ⟨b, _ | ⟨b', _ | ⟨b'', rest⟩⟩⟩⟩⟩ := c <;> rfl

protected theorem word64 : IsProgram Decoder.word64 :=
  IsProgram.word32.map₂ IsProgram.word32 BigEndian.word64

theorem timesFrom {item : Decoder α} (h : IsProgram item) (n : Nat) (done : List α) :
    IsProgram (Decoder.timesFrom item n done) := by
  induction n generalizing done with
  | zero => exact pure _
  | succ n ih => exact h.bind fun a => ih (a :: done)

theorem times {item : Decoder α} (h : IsProgram item) (n : Nat) :
    IsProgram (Decoder.times n item) :=
  h.timesFrom n []

theorem counted {item : Decoder α} (h : IsProgram item) : IsProgram (Decoder.counted item) :=
  IsProgram.word16.bind fun count => h.times count.toNat

end IsProgram

/-! ## Reads that fail -/

theorem take_error {n : Nat} {c c' : Cursor} {e : FormatError} (h : take n c = .error e c') :
    c' = c := by
  simp only [take] at h
  split at h
  · cases h
  · cases h
    rfl

theorem byte_error {c c' : Cursor} {e : FormatError} (h : byte c = .error e c') : c' = c := by
  unfold byte at h
  split at h <;> cases h
  rfl

theorem word16_error {c c' : Cursor} {e : FormatError} (h : word16 c = .error e c') : c' = c := by
  unfold word16 at h
  split at h <;> cases h
  rfl

theorem word32_error {c c' : Cursor} {e : FormatError} (h : word32 c = .error e c') : c' = c := by
  unfold word32 at h
  split at h <;> cases h
  rfl

/-- A word of eight bytes is two reads, so a failure may stand in front of its second half. -/
theorem word64_error {c c' : Cursor} {e : FormatError} (h : word64 c = .error e c') :
    c' = c ∨ c'.offset = c.offset + 4 ∧ c'.rest = c.rest.drop 4 := by
  cases hhigh : word32 c with
  | error e₁ c₁ =>
    have hfail : word64 c = .error e₁ c₁ := by simp only [word64, bind, EStateM.bind, hhigh]
    cases hfail.symm.trans h
    exact .inl (word32_error hhigh)
  | ok high mid =>
    obtain ⟨-, hrest, hoffset⟩ := word32_codec.sound _ _ _ hhigh
    cases hlow : word32 mid with
    | error e₂ c₂ =>
      have hfail : word64 c = .error e₂ c₂ := by simp only [word64, bind, EStateM.bind, hhigh, hlow]
      cases hfail.symm.trans h
      obtain rfl := word32_error hlow
      exact .inr ⟨hoffset, by rw [hrest]; rfl⟩
    | ok low last =>
      have hdone : word64 c = .ok (BigEndian.word64 high low) last := by
        simp only [word64, bind, EStateM.bind, hhigh, hlow]
        rfl
      cases hdone.symm.trans h

end Decoder

end JvmRelocation
