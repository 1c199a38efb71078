import Mathlib.Data.List.Forall2

/-!
# Computations that can fail

When a sequence of steps succeeds, every step did.
-/

namespace JvmRelocation

variable {ε α β : Type}

theorem exceptBind_eq_ok {x : Except ε α} {f : α → Except ε β} {b : β} :
    (x >>= f) = .ok b ↔ ∃ a, x = .ok a ∧ f a = .ok b := by
  cases x with
  | error e => simp [bind, Except.bind]
  | ok a => simp [bind, Except.bind]

theorem exceptMap_eq_ok {x : Except ε α} {f : α → β} {b : β} :
    x.map f = .ok b ↔ ∃ a, x = .ok a ∧ f a = b := by
  cases x <;> simp [Except.map]

theorem isOk_iff {x : Except ε α} : x.isOk = true ↔ ∃ a, x = .ok a := by
  cases x <;> simp [Except.isOk, Except.toBool]

theorem toOption_eq_some {x : Except ε α} {a : α} : x.toOption = some a ↔ x = .ok a := by
  cases x <;> simp [Except.toOption]

/-- A result that passes a check. -/
theorem exists_ok_of_any {x : Except ε α} {p : α → Bool} (h : x.toOption.any p = true) :
    ∃ a, x = .ok a ∧ p a = true := by
  cases x with
  | error e => cases h
  | ok a => exact ⟨a, rfl, h⟩

theorem exceptSeq_eq_ok {x : Except ε PUnit} {y : Except ε β} {b : β} :
    (x >>= fun _ => y) = .ok b ↔ x = .ok () ∧ y = .ok b := by
  rw [exceptBind_eq_ok]
  constructor
  · rintro ⟨⟨⟩, hx, hy⟩
    exact ⟨hx, hy⟩
  · rintro ⟨hx, hy⟩
    exact ⟨(), hx, hy⟩

theorem discard_eq_ok {x : Except ε α} : discard x = .ok () ↔ ∃ a, x = .ok a := by
  cases x <;> simp [discard, Functor.mapConst, Except.map]

/-- A step that guards what comes after it. -/
theorem exceptGuard_eq_ok {p : Bool} {e : ε} {x : Except ε β} {b : β} :
    (if p = true then throw e >>= fun (_ : α) => x else x) = .ok b ↔ p = false ∧ x = .ok b := by
  cases p <;> simp [throw, throwThe, MonadExceptOf.throw, bind, Except.bind]

theorem mapM_eq_ok {f : α → Except ε β} {list : List α} {results : List β} :
    list.mapM f = .ok results ↔ List.Forall₂ (fun a b => f a = .ok b) list results := by
  induction list generalizing results with
  | nil => simp [pure, Except.pure, eq_comm]
  | cons a list ih =>
    rw [List.mapM_cons, List.forall₂_cons_left_iff]
    simp only [exceptBind_eq_ok, ih]
    constructor
    · rintro ⟨b, hb, rest, hrest, heq⟩
      obtain rfl : b :: rest = results := by simpa [pure, Except.pure] using heq
      exact ⟨b, rest, hb, hrest, rfl⟩
    · rintro ⟨b, rest, hb, hrest, rfl⟩
      exact ⟨b, hb, rest, hrest, rfl⟩

/-- A traversal by a step that gives `g a` where `P a` holds, and fails elsewhere. -/
theorem mapM_eq_ok_iff {f : α → Except ε β} {g : α → β} {P : α → Prop}
    (h : ∀ a b, f a = .ok b ↔ P a ∧ b = g a) {list : List α} {results : List β} :
    list.mapM f = .ok results ↔ (∀ a ∈ list, P a) ∧ results = list.map g := by
  rw [mapM_eq_ok]
  simp only [h]
  induction list generalizing results with
  | nil => simp
  | cons a list ih =>
    rw [List.forall₂_cons_left_iff, List.forall_mem_cons, List.map_cons]
    simp only [ih]
    constructor
    · rintro ⟨b, rest, ⟨ha, rfl⟩, ⟨hlist, rfl⟩, rfl⟩
      exact ⟨⟨ha, hlist⟩, rfl⟩
    · rintro ⟨⟨ha, hlist⟩, rfl⟩
      exact ⟨_, _, ⟨ha, rfl⟩, ⟨hlist, rfl⟩, rfl⟩

/-- The same for a step that gives several results at once. -/
theorem flatMapM_eq_ok_iff {f : α → Except ε (List β)} {g : α → List β} {P : α → Prop}
    (h : ∀ a bs, f a = .ok bs ↔ P a ∧ bs = g a) {list : List α} {results : List β} :
    (do return (← list.mapM f).flatten) = .ok results ↔
      (∀ a ∈ list, P a) ∧ results = list.flatMap g := by
  rw [exceptBind_eq_ok]
  simp only [mapM_eq_ok_iff h]
  constructor
  · rintro ⟨_, ⟨hlist, rfl⟩, hresults⟩
    obtain rfl : _ = results := by simpa [pure, Except.pure] using hresults
    exact ⟨hlist, rfl⟩
  · rintro ⟨hlist, rfl⟩
    exact ⟨_, ⟨hlist, rfl⟩, rfl⟩

theorem forM_discard_eq_ok {f : α → Except ε β} {list : List α} :
    (list.forM fun a => discard (f a)) = .ok () ↔ ∀ a ∈ list, ∃ b, f a = .ok b := by
  induction list with
  | nil => simp [List.forM, pure, Except.pure]
  | cons a list ih => rw [List.forM, exceptSeq_eq_ok, discard_eq_ok, List.forall_mem_cons, ih]

theorem exists_of_forall₂ {R : α → β → Prop} {list : List α} {list' : List β}
    (h : List.Forall₂ R list list') {a : α} (ha : a ∈ list) : ∃ b ∈ list', R a b := by
  induction h with
  | nil => cases ha
  | cons hab _ ih =>
    rcases List.mem_cons.mp ha with rfl | ha
    · exact ⟨_, List.mem_cons_self, hab⟩
    · obtain ⟨b, hb, hR⟩ := ih ha
      exact ⟨b, List.mem_cons_of_mem _ hb, hR⟩

/-! ## Readers -/

variable {σ : Type}

theorem bind_ok {x : EStateM ε σ α} {f : α → EStateM ε σ β} {c c' : σ} {b : β}
    (h : (x >>= f) c = .ok b c') : ∃ a mid, x c = .ok a mid ∧ f a mid = .ok b c' := by
  simp only [bind, EStateM.bind] at h
  split at h
  · exact ⟨_, _, ‹_›, h⟩
  · cases h

theorem bind_error {x : EStateM ε σ α} {f : α → EStateM ε σ β} {c c' : σ} {e : ε}
    (h : (x >>= f) c = .error e c') :
    x c = .error e c' ∨ ∃ a mid, x c = .ok a mid ∧ f a mid = .error e c' := by
  simp only [bind, EStateM.bind] at h
  split at h
  case h_1 a mid hx => exact .inr ⟨a, mid, hx, h⟩
  case h_2 e' mid hx =>
    cases h
    exact .inl hx

/-- What is returned behind a step is made of what the step gives. -/
theorem return_ok {x : EStateM ε σ α} {f : α → β} {c c' : σ} {b : β}
    (h : (do return f (← x)) c = .ok b c') : ∃ a, x c = .ok a c' ∧ f a = b := by
  obtain ⟨a, mid, hx, h⟩ := bind_ok h
  cases h
  exact ⟨a, hx, rfl⟩

theorem return_error {x : EStateM ε σ α} {f : α → β} {c c' : σ} {e : ε}
    (h : (do return f (← x)) c = .error e c') : x c = .error e c' := by
  rcases bind_error h with hx | ⟨a, mid, -, h⟩
  · exact hx
  · cases h

theorem bind_of_ok {x : EStateM ε σ α} {f : α → EStateM ε σ β} {c mid : σ} {a : α}
    (h : x c = .ok a mid) : (x >>= f) c = f a mid := by
  simp only [bind, EStateM.bind, h]

end JvmRelocation
