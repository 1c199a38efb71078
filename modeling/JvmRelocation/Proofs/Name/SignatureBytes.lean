import JvmRelocation.Bytes.BigEndian
import JvmRelocation.Proofs.Name.SignatureRenaming

/-!
# Renaming a signature byte by byte

A reader of the UTF-8 bytes of a signature that writes the renamed text while it reads. It keeps a byte
position, looks at single bytes, and copies slices of the text, which are only there between two places
that each stand between characters. It builds no tree: what is written so far, and whether that differs
from what has been read, is all it keeps.

The characters that it looks for are each one byte, and no other character has such a byte. So between
two places that are reached this way there are whole characters, and what the bytes say is what the
characters say.
-/

namespace JvmRelocation

/-! ## Bytes and characters -/

/-- The bytes of a text. -/
def utf8 (text : List Char) : Bytes :=
  text.flatMap String.utf8EncodeChar

/-- The byte of a character that is one byte. -/
def ascii (c : Char) : UInt8 := UInt8.ofNat c.toNat

/-- A text cut after a number of bytes, where that is between two characters or at an end. -/
def cutAt : List Char → Nat → Option (List Char × List Char)
  | text, 0 => some ([], text)
  | [], _ + 1 => none
  | c :: text, n + 1 =>
    if c.utf8Size ≤ n + 1 then
      (cutAt text (n + 1 - c.utf8Size)).map fun (front, rest) => (c :: front, rest)
    else none

/-- The characters in a number of bytes of a text behind a position. -/
def slice (text : List Char) (position n : Nat) : Option (List Char) :=
  (cutAt text position).bind fun cut => (cutAt cut.2 n).map (·.1)

/-! ## The reader -/

/-- Why reading stops. -/
inductive ByteFault where
  /-- No production goes on at a position. -/
  | malformed (position : Nat)
  /-- A slice would start or end inside a character, or behind the text. -/
  | badSlice
deriving DecidableEq, Repr

/-- A text that is written, and whether it differs from what has been read. -/
@[ext]
structure Written where
  text : List Char
  changed : Bool
deriving DecidableEq, Repr

structure ByteCursor where
  position : Nat
  written : Written

abbrev ByteReader := EStateM ByteFault ByteCursor

namespace Written

instance : Append Written :=
  ⟨fun a b => ⟨a.text ++ b.text, a.changed || b.changed⟩⟩

/-- Nothing has been written. -/
def nothing : Written := ⟨[], false⟩

/-- A text that is copied. -/
def copied (text : List Char) : Written := ⟨text, false⟩

/-- A label that is written in the place of another one. -/
def label (old new : String) : Written := ⟨new.toList, decide (new ≠ old)⟩

end Written

namespace ByteReader

def refuse : ByteReader Unit := fun c => .error (.malformed c.position) c

def write (w : Written) : ByteReader Unit := fun c => .ok () { c with written := c.written ++ w }

section

variable (text : List Char)

/-- The next byte. -/
def peek : ByteReader (Option UInt8) := fun c => .ok (utf8 text)[c.position]? c

/-- The slice of the next bytes, which are gone past. -/
def take (n : Nat) : ByteReader (List Char) := fun c =>
  match slice text c.position n with
  | some token => .ok token { c with position := c.position + n }
  | none => .error .badSlice c

/-- Writes the slice of the next bytes as it is. -/
def copy (n : Nat) : ByteReader Unit := do
  let token ← take text n
  write (.copied token)

/-- The text up to the first of the given characters, which stays ahead. -/
def takeUntil (stops : List Char) : ByteReader String := fun c =>
  if (utf8 text).length < c.position then .error .badSlice c
  else
    match ((utf8 text).drop c.position).findIdx? fun b => stops.any fun x => b = ascii x with
    | some n => ((String.ofList ·) <$> take text n) c
    | none => .error (.malformed c.position) c

/-- Whether the next byte is one of the given characters. -/
def isOneOf (stops : List Char) (next : Option UInt8) : Bool :=
  stops.any fun x => next = some (ascii x)

variable (m : NameMapper)

mutual

def type : Nat → ByteReader Unit
  | 0 => refuse
  | fuel + 1 => do
    let next ← peek text
    if isOneOf ['B', 'C', 'D', 'F', 'I', 'J', 'S', 'Z', 'V'] next then copy text 1
    else if next = some (ascii '[') then
      copy text 1
      type fuel
    else if next = some (ascii 'T') then
      copy text 1
      let name ← takeUntil text [';']
      write (.copied name.toList)
      copy text 1
    else if next = some (ascii 'L') then
      copy text 1
      let name ← takeUntil text ['<', '.', ';']
      let target := m.rename name
      write (.label name target)
      suffixes fuel name target
    else refuse

/-- What follows the class whose full name is `original`, now called `target`. -/
def suffixes : Nat → String → String → ByteReader Unit
  | 0, _, _ => refuse
  | fuel + 1, original, target => do
    let next ← peek text
    if next = some (ascii '<') then
      copy text 1
      arguments fuel
      suffixes fuel original target
    else if next = some (ascii '.') then
      copy text 1
      let inner ← takeUntil text ['<', '.', ';']
      let full := innerName original inner
      match m full with
      | some mapped =>
        write (.label inner (simpleName target mapped))
        suffixes fuel full mapped
      | none =>
        write (.copied inner.toList)
        suffixes fuel full (innerName target inner)
    else if next = some (ascii ';') then copy text 1
    else refuse

/-- Type arguments, with the closing bracket. -/
def arguments : Nat → ByteReader Unit
  | 0 => refuse
  | fuel + 1 => do
    let next ← peek text
    if next = some (ascii '>') then copy text 1
    else if next = some (ascii '*') then
      copy text 1
      arguments fuel
    else if isOneOf ['+', '-'] next then
      copy text 1
      type fuel
      arguments fuel
    else if next.isNone then refuse
    else
      type fuel
      arguments fuel

end

def bounds : Nat → ByteReader Unit
  | 0 => refuse
  | fuel + 1 => do
    if (← peek text) = some (ascii ':') then
      copy text 1
      if isOneOf ['L', 'T', '['] (← peek text) then type text m fuel
      bounds fuel

/-- Formal type parameters, with the closing bracket. -/
def formals : Nat → ByteReader Unit
  | 0 => refuse
  | fuel + 1 => do
    if (← peek text) = some (ascii '>') then copy text 1
    else
      let identifier ← takeUntil text [':']
      if identifier = "" then refuse
      else
        write (.copied identifier.toList)
        bounds text m fuel
        formals fuel

/-- The parameters of a method, with the closing parenthesis. -/
def parameters : Nat → ByteReader Unit
  | 0 => refuse
  | fuel + 1 => do
    let next ← peek text
    if next = some (ascii ')') then copy text 1
    else if next.isNone then refuse
    else
      type text m fuel
      parameters fuel

def thrown : Nat → ByteReader Unit
  | 0 => refuse
  | fuel + 1 => do
    if (← peek text) = some (ascii '^') then
      copy text 1
      type text m fuel
      thrown fuel

/-- Types up to the end of the text. -/
def typesToEnd : Nat → ByteReader Unit
  | 0 => refuse
  | fuel + 1 => do
    if (← peek text).isSome then
      type text m fuel
      typesToEnd fuel

/-- Refuses to end anywhere else than behind the last byte. -/
def atEnd : ByteReader Unit := fun c =>
  if c.position = (utf8 text).length then .ok () c else .error (.malformed c.position) c

/-- What follows the formal type parameters, up to the end of the text. -/
def body (fuel : Nat) : ByteReader Unit := do
  let next ← peek text
  if next = some (ascii '(') then
    copy text 1
    parameters text m fuel
    type text m fuel
    thrown text m fuel
  else if next.isNone then refuse
  else typesToEnd text m fuel
  atEnd text

def signature (fuel : Nat) : ByteReader Unit := do
  if (← peek text) = some (ascii '<') then
    copy text 1
    formals text m fuel
  body text m fuel

end

end ByteReader

/-- The answer that belongs to what is written: nothing where no label differs. -/
def Written.answer (w : Written) : Option String :=
  if w.changed then some (String.ofList w.text) else none

/-- What is written while a text is read as a signature. -/
def Signature.emit (m : NameMapper) (text : String) (fuel : Nat) : Except ByteFault Written :=
  match ByteReader.signature text.toList m fuel ⟨0, .nothing⟩ with
  | .ok _ c => .ok c.written
  | .error fault _ => .error fault

/-! ## What bytes say of characters -/

theorem utf8_append (front rest : List Char) : utf8 (front ++ rest) = utf8 front ++ utf8 rest :=
  List.flatMap_append

theorem utf8_cons (c : Char) (rest : List Char) :
    utf8 (c :: rest) = String.utf8EncodeChar c ++ utf8 rest := List.flatMap_cons

theorem length_utf8 (text : List Char) : (utf8 text).length = Signature.utf8Length text := by
  have hfold (n : Nat) : text.foldl (fun n c => n + c.utf8Size) n = n + (utf8 text).length := by
    induction text generalizing n with
    | nil => rfl
    | cons c text ih =>
      rw [List.foldl_cons, ih, utf8_cons, List.length_append, String.length_utf8EncodeChar,
        Nat.add_assoc]
  rw [Signature.utf8Length, hfold, Nat.zero_add]

theorem toNat_ascii {c : Char} (h : c.toNat < 128) : (ascii c).toNat = c.toNat := by
  rw [ascii, UInt8.toNat_ofNat']
  omega

theorem utf8EncodeChar_ascii {c : Char} (h : c.toNat < 128) :
    String.utf8EncodeChar c = [ascii c] := by
  have hle : c.val.toNat ≤ 127 := Nat.le_of_lt_succ h
  rw [String.utf8EncodeChar, if_pos hle]
  rfl

/-- Every byte of a character that takes several is beyond those of single characters. -/
theorem le_of_mem_utf8EncodeChar {c : Char} (h : ¬c.toNat < 128) {b : UInt8}
    (hb : b ∈ String.utf8EncodeChar c) : 128 ≤ b.toNat := by
  have hv : ¬c.val.toNat ≤ 127 := fun hle => h (Nat.lt_succ_of_le hle)
  have hbyte {n : Nat} (hlow : 128 ≤ n) (hhigh : n < 256) : 128 ≤ (UInt8.ofNat n).toNat := by
    rw [UInt8.toNat_ofNat']
    omega
  rw [String.utf8EncodeChar] at hb
  rw [if_neg hv] at hb
  split at hb
  · simp only [List.mem_cons, List.not_mem_nil, or_false] at hb
    rcases hb with rfl | rfl <;> exact hbyte (by omega) (by omega)
  · split at hb
    · simp only [List.mem_cons, List.not_mem_nil, or_false] at hb
      rcases hb with rfl | rfl | rfl <;> exact hbyte (by omega) (by omega)
    · simp only [List.mem_cons, List.not_mem_nil, or_false] at hb
      rcases hb with rfl | rfl | rfl | rfl <;> exact hbyte (by omega) (by omega)

/-- The byte of a character that is one byte is in no other character. -/
theorem eq_ascii_iff {b : UInt8} {c x : Char} (hb : b ∈ String.utf8EncodeChar c)
    (hx : x.toNat < 128) : b = ascii x ↔ c = x := by
  by_cases hc : c.toNat < 128
  · rw [utf8EncodeChar_ascii hc, List.mem_singleton] at hb
    subst hb
    constructor
    · intro heq
      have htoNat := congrArg UInt8.toNat heq
      rw [toNat_ascii hc, toNat_ascii hx] at htoNat
      exact Char.toNat_inj.mp htoNat
    · rintro rfl
      rfl
  · have hbyte := le_of_mem_utf8EncodeChar hc hb
    constructor
    · rintro rfl
      rw [toNat_ascii hx] at hbyte
      omega
    · rintro rfl
      exact absurd hx hc

/-- The first byte of a text is that of a character exactly if the first character is that one. -/
theorem head?_utf8_eq {rest : List Char} {x : Char} (hx : x.toNat < 128) :
    (utf8 rest).head? = some (ascii x) ↔ rest.head? = some x := by
  cases rest with
  | nil => simp [utf8]
  | cons c rest =>
    obtain ⟨b, bytes, hbytes⟩ := List.exists_cons_of_ne_nil (String.utf8EncodeChar_ne_nil (c := c))
    have hb : b ∈ String.utf8EncodeChar c := by simp [hbytes]
    rw [utf8_cons, hbytes, List.cons_append, List.head?_cons, List.head?_cons, Option.some.injEq,
      Option.some.injEq, eq_ascii_iff hb hx]

theorem isNone_head?_utf8 (rest : List Char) :
    (utf8 rest).head?.isNone = rest.head?.isNone := by
  cases rest with
  | nil => rfl
  | cons c rest =>
    obtain ⟨b, bytes, hbytes⟩ := List.exists_cons_of_ne_nil (String.utf8EncodeChar_ne_nil (c := c))
    rw [utf8_cons, hbytes]
    rfl

/-- A text can be cut exactly behind the bytes of some of its characters. -/
theorem cutAt_eq_some {text front rest : List Char} {n : Nat} :
    cutAt text n = some (front, rest) ↔ text = front ++ rest ∧ n = (utf8 front).length := by
  induction text, n using cutAt.induct generalizing front with
  | case1 text =>
    rw [cutAt, Option.some.injEq, Prod.mk.injEq]
    constructor
    · rintro ⟨rfl, rfl⟩
      exact ⟨rfl, rfl⟩
    · rintro ⟨rfl, hlength⟩
      cases front with
      | nil => exact ⟨rfl, rfl⟩
      | cons c front =>
        have hpos := c.utf8Size_pos
        rw [utf8_cons, List.length_append, String.length_utf8EncodeChar] at hlength
        omega
  | case2 n =>
    rw [cutAt]
    simp only [reduceCtorEq, false_iff, not_and]
    intro hnil
    rw [(List.append_eq_nil_iff.mp hnil.symm).1]
    exact Nat.succ_ne_zero n
  | case3 c text n hfits ih =>
    rw [cutAt, if_pos hfits]
    constructor
    · intro h
      obtain ⟨⟨front', rest'⟩, hcut, heq⟩ := Option.map_eq_some_iff.mp h
      obtain ⟨rfl, rfl⟩ := Prod.mk.inj heq
      obtain ⟨rfl, hlength⟩ := ih.mp hcut
      refine ⟨rfl, ?_⟩
      rw [utf8_cons, List.length_append, String.length_utf8EncodeChar, ← hlength]
      omega
    · rintro ⟨htext, hlength⟩
      cases front with
      | nil => cases hlength
      | cons d front =>
        obtain ⟨rfl, rfl⟩ := List.cons.inj htext
        rw [utf8_cons, List.length_append, String.length_utf8EncodeChar] at hlength
        rw [ih.mpr ⟨rfl, by omega⟩]
        rfl
  | case4 c text n hsplits =>
    rw [cutAt, if_neg hsplits]
    simp only [reduceCtorEq, false_iff, not_and]
    intro htext hlength
    cases front with
    | nil => cases hlength
    | cons d front =>
      obtain ⟨rfl, rfl⟩ := List.cons.inj htext
      rw [utf8_cons, List.length_append, String.length_utf8EncodeChar] at hlength
      omega

/-! ## Places in a text -/

/-- A text has the given rest behind a byte position. -/
def At (text rest : List Char) (position : Nat) : Prop :=
  ∃ front, text = front ++ rest ∧ position = (utf8 front).length

namespace At

variable {text rest token : List Char} {position : Nat}

theorem start (text : List Char) : At text text 0 := ⟨[], rfl, rfl⟩

theorem drop_eq (h : At text rest position) : (utf8 text).drop position = utf8 rest := by
  obtain ⟨front, rfl, rfl⟩ := h
  rw [utf8_append, List.drop_left]

theorem getElem?_eq (h : At text rest position) : (utf8 text)[position]? = (utf8 rest).head? := by
  rw [← h.drop_eq, List.head?_drop]

theorem add_length (h : At text rest position) :
    position + (utf8 rest).length = (utf8 text).length := by
  obtain ⟨front, rfl, rfl⟩ := h
  rw [utf8_append, List.length_append]

theorem not_behind (h : At text rest position) : ¬(utf8 text).length < position := by
  have hlength := h.add_length
  omega

/-- Whole characters are a slice, and behind them is a place again. -/
theorem slice_eq (h : At text (token ++ rest) position) :
    slice text position (utf8 token).length = some token ∧
      At text rest (position + (utf8 token).length) := by
  obtain ⟨front, rfl, rfl⟩ := h
  constructor
  · rw [slice, cutAt_eq_some.mpr ⟨rfl, rfl⟩, Option.bind_some, cutAt_eq_some.mpr ⟨rfl, rfl⟩]
    rfl
  · refine ⟨front ++ token, by rw [List.append_assoc], ?_⟩
    rw [utf8_append, List.length_append]

end At

/-! ## Reading a place -/

namespace ByteReader

variable {text rest : List Char} {position : Nat} (before : Written)

theorem peek_eq (h : At text rest position) :
    peek text ⟨position, before⟩ = .ok (utf8 rest).head? ⟨position, before⟩ := by
  rw [peek, h.getElem?_eq]

theorem take_eq {token : List Char} (h : At text (token ++ rest) position) :
    take text (utf8 token).length ⟨position, before⟩ =
      .ok token ⟨position + (utf8 token).length, before⟩ := by
  rw [take, h.slice_eq.1]

/-- A character that is one byte is copied as such. -/
theorem copy_eq {c : Char} (hc : c.toNat < 128) (h : At text (c :: rest) position) :
    copy text 1 ⟨position, before⟩ = .ok () ⟨position + 1, before ++ .copied [c]⟩ ∧
      At text rest (position + 1) := by
  have hone : (utf8 [c]).length = 1 := by
    rw [utf8_cons, utf8EncodeChar_ascii hc]
    rfl
  have hat : At text ([c] ++ rest) position := h
  have htake := take_eq before hat
  rw [hone] at htake
  refine ⟨?_, hone ▸ hat.slice_eq.2⟩
  rw [copy]
  show EStateM.bind (take text 1) _ _ = _
  rw [EStateM.bind, htake]
  rfl

section TakeUntil

variable {stops : List Char}

/-- A byte of a character is a stop exactly if the character is. -/
theorem isStop_iff (hstops : ∀ x ∈ stops, x.toNat < 128) {c : Char} {b : UInt8}
    (hb : b ∈ String.utf8EncodeChar c) :
    (stops.any fun x => b = ascii x) = true ↔ c ∈ stops := by
  simp only [List.any_eq_true, decide_eq_true_eq]
  constructor
  · rintro ⟨x, hx, heq⟩
    rwa [(eq_ascii_iff hb (hstops x hx)).mp heq]
  · intro hc
    exact ⟨c, hc, (eq_ascii_iff hb (hstops c hc)).mpr rfl⟩

theorem findIdx?_of_not_mem (hstops : ∀ x ∈ stops, x.toNat < 128) {text : List Char}
    (h : ∀ c ∈ text, c ∉ stops) :
    (utf8 text).findIdx? (fun b => stops.any fun x => b = ascii x) = none := by
  rw [List.findIdx?_eq_none_iff]
  intro b hb
  obtain ⟨c, hc, hb⟩ := List.mem_flatMap.mp hb
  rw [Bool.eq_false_iff, ne_eq, isStop_iff hstops hb]
  exact h c hc

theorem takeUntil_of_mem (hstops : ∀ x ∈ stops, x.toNat < 128) {token : List Char} {c : Char}
    (htoken : ∀ x ∈ token, x ∉ stops) (hc : c ∈ stops) (h : At text (token ++ c :: rest) position) :
    takeUntil text stops ⟨position, before⟩ =
        .ok (String.ofList token) ⟨position + (utf8 token).length, before⟩ ∧
      At text (c :: rest) (position + (utf8 token).length) := by
  refine ⟨?_, h.slice_eq.2⟩
  have hfind : (utf8 (token ++ c :: rest)).findIdx? (fun b => stops.any fun x => b = ascii x) =
      some (utf8 token).length := by
    have hfirst : (stops.any fun x => ascii c = ascii x) = true :=
      List.any_eq_true.mpr ⟨c, hc, decide_eq_true rfl⟩
    rw [utf8_append, List.findIdx?_append, findIdx?_of_not_mem hstops htoken, utf8_cons,
      utf8EncodeChar_ascii (hstops c hc), List.singleton_append, List.findIdx?_cons, hfirst]
    simp
  rw [takeUntil, if_neg h.not_behind, h.drop_eq, hfind]
  show EStateM.map _ (take text _) _ = _
  rw [EStateM.map, take_eq before h]

theorem takeUntil_of_not_mem (hstops : ∀ x ∈ stops, x.toNat < 128) (hrest : ∀ c ∈ rest, c ∉ stops)
    (h : At text rest position) : takeUntil text stops ⟨position, before⟩ =
      .error (.malformed position) ⟨position, before⟩ := by
  rw [takeUntil, if_neg h.not_behind, h.drop_eq, findIdx?_of_not_mem hstops hrest]

end TakeUntil

end ByteReader

end JvmRelocation
