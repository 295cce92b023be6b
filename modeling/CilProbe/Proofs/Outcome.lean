/-
CilProbe/Proofs/Outcome.lean

Computations that may fail, taken apart.  A computation in two parts that
succeeds has two parts that succeed; a list of computations that succeeds is a
list of successes, one for each item.  The same for computations that also carry
a state, where the second part starts from what the first one left.
-/
import Mathlib.Data.List.Forall2

namespace CilProbe

variable {ε α β σ : Type}

/-! ### Results -/

theorem bind_eq_ok {x : Except ε α} {f : α → Except ε β} {b : β} :
    x >>= f = .ok b ↔ ∃ a, x = .ok a ∧ f a = .ok b := by
  rcases x with err | a
  · constructor
    · intro h
      cases h
    · rintro ⟨a, h, -⟩
      cases h
  · constructor
    · intro h
      exact ⟨a, rfl, h⟩
    · rintro ⟨a', h, h'⟩
      cases h
      exact h'

/-- The same for a first part that answers with nothing. -/
theorem seq_eq_ok {x : Except ε Unit} {f : Unit → Except ε β} {b : β} :
    x >>= f = .ok b ↔ x = .ok () ∧ f () = .ok b := by
  rw [bind_eq_ok]
  exact ⟨fun ⟨_, hx, hf⟩ => ⟨hx, hf⟩, fun ⟨hx, hf⟩ => ⟨(), hx, hf⟩⟩

theorem pure_eq_ok {a b : α} : (pure a : Except ε α) = .ok b ↔ a = b := by
  constructor
  · intro h
    cases h
    rfl
  · rintro rfl
    rfl

/-- A second part that cannot fail leaves the failures of the first. -/
theorem bind_pure_eq_error {x : Except ε α} {f : α → β} {e : ε} :
    (x >>= fun a => pure (f a)) = .error e ↔ x = .error e := by
  rcases x with e' | a
  · constructor
    · rintro ⟨⟩
      rfl
    · rintro ⟨⟩
      rfl
  · constructor
    · intro h
      cases h
    · intro h
      cases h

/-- A computation in two parts fails in one of them. -/
theorem bind_eq_error {x : Except ε α} {f : α → Except ε β} {e : ε} :
    x >>= f = .error e ↔ x = .error e ∨ ∃ a, x = .ok a ∧ f a = .error e := by
  rcases x with e' | a
  · constructor
    · rintro ⟨⟩
      exact .inl rfl
    · rintro (⟨⟨⟩⟩ | ⟨a, ⟨⟩, -⟩)
      rfl
  · constructor
    · intro h
      exact .inr ⟨a, rfl, h⟩
    · rintro (⟨⟨⟩⟩ | ⟨a, ⟨⟩, h⟩)
      exact h

/-- A list of computations fails with the failure of one of them. -/
theorem exists_of_mapM_eq_error {f : α → Except ε β} {items : List α} {e : ε}
    (h : items.mapM f = .error e) : ∃ a ∈ items, f a = .error e := by
  induction items with
  | nil => cases h
  | cons a items ih =>
    rw [List.mapM_cons] at h
    rcases bind_eq_error.mp h with ha | ⟨b, -, h⟩
    · exact ⟨a, by simp, ha⟩
    · obtain ⟨a', ha', h⟩ := ih (bind_pure_eq_error.mp h)
      exact ⟨a', List.mem_cons_of_mem _ ha', h⟩

/-- A list of computations that succeed succeeds. -/
theorem exists_mapM {f : α → Except ε β} {items : List α} (h : ∀ a ∈ items, ∃ b, f a = .ok b) :
    ∃ results, items.mapM f = .ok results := by
  rcases hrun : items.mapM f with e | results
  · obtain ⟨a, ha, herror⟩ := exists_of_mapM_eq_error hrun
    obtain ⟨b, hb⟩ := h a ha
    cases herror.symm.trans hb
  · exact ⟨results, rfl⟩

/-- A list of computations succeeds exactly if each of them does. -/
theorem mapM_eq_ok {f : α → Except ε β} {items : List α} {results : List β} :
    items.mapM f = .ok results ↔ List.Forall₂ (fun a b => f a = .ok b) items results := by
  induction items generalizing results with
  | nil =>
    rw [List.mapM_nil, pure_eq_ok, List.forall₂_nil_left_iff]
    exact eq_comm
  | cons a items ih =>
    rw [List.mapM_cons, bind_eq_ok]
    constructor
    · rintro ⟨b, hb, h⟩
      obtain ⟨bs, hbs, h⟩ := bind_eq_ok.mp h
      obtain rfl := pure_eq_ok.mp h
      exact .cons hb (ih.mp hbs)
    · intro h
      obtain ⟨b, bs, hb, hbs, rfl⟩ := List.forall₂_cons_left_iff.mp h
      exact ⟨b, hb, bind_eq_ok.mpr ⟨bs, ih.mpr hbs, rfl⟩⟩

/-- The item that belongs to one of a list of related items. -/
theorem exists_of_forall₂ {α β : Type} {R : α → β → Prop} {as : List α} {bs : List β}
    (h : List.Forall₂ R as bs) {k : Nat} {a : α} (ha : as[k]? = some a) :
    ∃ b, bs[k]? = some b ∧ R a b := by
  induction h generalizing k with
  | nil => cases ha
  | cons hab _ ih =>
    rcases k with - | k
    · obtain rfl := Option.some.inj ha
      exact ⟨_, rfl, hab⟩
    · exact ih ha

theorem forM_eq_ok {f : α → Except ε Unit} {items : List α} :
    items.forM f = .ok () ↔ ∀ a ∈ items, f a = .ok () := by
  induction items with
  | nil =>
    constructor
    · intro _ a ha
      cases ha
    · intro _
      rfl
  | cons a items ih =>
    show (f a >>= fun _ => items.forM f) = .ok () ↔ _
    rw [bind_eq_ok, List.forall_mem_cons, ← ih]
    constructor
    · rintro ⟨_, ha, h⟩
      exact ⟨ha, h⟩
    · rintro ⟨ha, h⟩
      exact ⟨(), ha, h⟩

/-- What one step keeps, and what each makes true for good, holds at the end of
a list of steps. -/
theorem foldlM_preserves {f : β → α → Except ε β} {P : β → Prop} {items : List α} {b b' : β}
    (hstep : ∀ b a b', a ∈ items → P b → f b a = .ok b' → P b') (hb : P b)
    (h : items.foldlM f b = .ok b') : P b' := by
  induction items generalizing b with
  | nil =>
    obtain rfl := pure_eq_ok.mp h
    exact hb
  | cons a items ih =>
    rw [List.foldlM_cons] at h
    obtain ⟨b₁, hb₁, h⟩ := bind_eq_ok.mp h
    exact ih (fun b a b' ha => hstep b a b' (List.mem_cons_of_mem _ ha))
      (hstep b a b₁ (by simp) hb hb₁) h

/-- A list of steps fails with the failure of one of them. -/
theorem exists_of_foldlM_eq_error {f : β → α → Except ε β} {items : List α} {b : β} {e : ε}
    (h : items.foldlM f b = .error e) : ∃ a ∈ items, ∃ b, f b a = .error e := by
  induction items generalizing b with
  | nil => cases h
  | cons a items ih =>
    rw [List.foldlM_cons] at h
    rcases bind_eq_error.mp h with ha | ⟨b₁, -, h⟩
    · exact ⟨a, by simp, b, ha⟩
    · obtain ⟨a', ha', h⟩ := ih h
      exact ⟨a', List.mem_cons_of_mem _ ha', h⟩

/-! ### Results with a state -/

theorem run_bind_eq_ok {e : StateT σ (Except ε) α} {f : α → StateT σ (Except ε) β} {s s'' : σ}
    {b : β} :
    (e >>= f).run s = .ok (b, s'') ↔
      ∃ a s', e.run s = .ok (a, s') ∧ (f a).run s' = .ok (b, s'') := by
  rw [StateT.run_bind, bind_eq_ok]
  constructor
  · rintro ⟨⟨a, s'⟩, he, hf⟩
    exact ⟨a, s', he, hf⟩
  · rintro ⟨a, s', he, hf⟩
    exact ⟨(a, s'), he, hf⟩

theorem run_pure_eq_ok {a b : α} {s s' : σ} :
    (pure a : StateT σ (Except ε) α).run s = .ok (b, s') ↔ a = b ∧ s = s' := by
  rw [StateT.run_pure, pure_eq_ok, Prod.mk.injEq]

theorem run_map_eq_ok {e : StateT σ (Except ε) α} {f : α → β} {s s' : σ} {b : β} :
    (f <$> e).run s = .ok (b, s') ↔ ∃ a, e.run s = .ok (a, s') ∧ f a = b := by
  rw [StateT.run_map]
  rcases e.run s with err | ⟨a, s₁⟩
  · constructor
    · intro h
      cases h
    · rintro ⟨a, h, -⟩
      cases h
  · constructor
    · intro h
      cases h
      exact ⟨a, rfl, rfl⟩
    · rintro ⟨a, h, rfl⟩
      cases h
      rfl

/-- A list of steps that succeeds makes one result for each item.  What is said of
a result when it is made (`Made`) is true at the end if later steps leave it
true; every step starts from a state that is `Good` and ends in one. -/
theorem run_mapM_eq_ok {f : α → StateT σ (Except ε) β} (Good : σ → Prop)
    (Made : α → β → σ → Prop) {items : List α} {results : List β} {s s' : σ}
    (hstep : ∀ a ∈ items, ∀ s b s', Good s → (f a).run s = .ok (b, s') →
      Good s' ∧ Made a b s' ∧ ∀ a b, Made a b s → Made a b s')
    (hs : Good s) (h : (items.mapM f).run s = .ok (results, s')) :
    Good s' ∧ List.Forall₂ (fun a b => Made a b s') items results ∧
      ∀ a b, Made a b s → Made a b s' := by
  induction items generalizing s results with
  | nil =>
    obtain ⟨rfl, rfl⟩ := run_pure_eq_ok.mp h
    exact ⟨hs, .nil, fun _ _ h => h⟩
  | cons a items ih =>
    rw [List.mapM_cons] at h
    obtain ⟨b, s₁, hb, h⟩ := run_bind_eq_ok.mp h
    obtain ⟨bs, s₂, hbs, h⟩ := run_bind_eq_ok.mp h
    obtain ⟨rfl, rfl⟩ := run_pure_eq_ok.mp h
    obtain ⟨hs₁, hmade, hkeep⟩ := hstep a (by simp) s b s₁ hs hb
    obtain ⟨hs₂, hall, hkeep'⟩ := ih (fun a ha => hstep a (List.mem_cons_of_mem _ ha)) hs₁ hbs
    exact ⟨hs₂, .cons (hkeep' a b hmade) hall, fun a b h => hkeep' a b (hkeep a b h)⟩

/-- A list of steps succeeds if each of them does from every `Good` state and leaves one. -/
theorem exists_run_mapM {f : α → StateT σ (Except ε) β} (Good : σ → Prop) {items : List α}
    (hstep : ∀ a ∈ items, ∀ s, Good s → ∃ b s', (f a).run s = .ok (b, s') ∧ Good s') {s : σ}
    (hs : Good s) : ∃ results s', (items.mapM f).run s = .ok (results, s') ∧ Good s' := by
  induction items generalizing s with
  | nil => exact ⟨[], s, rfl, hs⟩
  | cons a items ih =>
    obtain ⟨b, s₁, hb, hs₁⟩ := hstep a (by simp) s hs
    obtain ⟨bs, s₂, hbs, hs₂⟩ := ih (fun a ha => hstep a (List.mem_cons_of_mem _ ha)) hs₁
    refine ⟨b :: bs, s₂, ?_, hs₂⟩
    rw [List.mapM_cons]
    exact run_bind_eq_ok.mpr ⟨b, s₁, hb, run_bind_eq_ok.mpr ⟨bs, s₂, hbs, rfl⟩⟩

/-- The same for steps that answer with nothing. -/
theorem exists_run_forM {f : α → StateT σ (Except ε) Unit} (Good : σ → Prop) {items : List α}
    (hstep : ∀ a ∈ items, ∀ s, Good s → ∃ s', (f a).run s = .ok ((), s') ∧ Good s') {s : σ}
    (hs : Good s) : ∃ s', (items.forM f).run s = .ok ((), s') ∧ Good s' := by
  induction items generalizing s with
  | nil => exact ⟨s, rfl, hs⟩
  | cons a items ih =>
    obtain ⟨s₁, ha, hs₁⟩ := hstep a (by simp) s hs
    obtain ⟨s₂, h, hs₂⟩ := ih (fun a ha => hstep a (List.mem_cons_of_mem _ ha)) hs₁
    exact ⟨s₂, run_bind_eq_ok.mpr ⟨(), s₁, ha, h⟩, hs₂⟩

/-! ### Results beside a state -/

/-- The second part goes on where the first one left. -/
theorem run_bind_of_run {x : StateM σ α} {f : α → StateM σ β} {s s' : σ} {a : α}
    (h : x.run s = (a, s')) : (x >>= f).run s = (f a).run s' := by
  rw [StateT.run_bind, h]
  rfl

theorem attempt_bind_of_ok {e : ExceptT ε (StateM σ) α} {f : α → ExceptT ε (StateM σ) β}
    {s s' : σ} {a : α} (h : e.run.run s = (.ok a, s')) :
    (e >>= f).run.run s = (f a).run.run s' := by
  rw [ExceptT.run_bind, run_bind_of_run h]

theorem attempt_bind_of_error {e : ExceptT ε (StateM σ) α} {f : α → ExceptT ε (StateM σ) β}
    {s s' : σ} {err : ε} (h : e.run.run s = (.error err, s')) :
    (e >>= f).run.run s = (.error err, s') := by
  rw [ExceptT.run_bind, run_bind_of_run h]
  rfl

/-- Here a failure keeps the state. -/
theorem attempt_bind_eq_ok {e : ExceptT ε (StateM σ) α} {f : α → ExceptT ε (StateM σ) β}
    {s s'' : σ} {b : β} :
    (e >>= f).run.run s = (.ok b, s'') ↔
      ∃ a s', e.run.run s = (.ok a, s') ∧ (f a).run.run s' = (.ok b, s'') := by
  rcases he : e.run.run s with ⟨err | a, s'⟩
  · rw [attempt_bind_of_error he]
    constructor
    · intro h
      cases h
    · rintro ⟨a, s₁, h, -⟩
      cases h
  · rw [attempt_bind_of_ok he]
    constructor
    · intro h
      exact ⟨a, s', rfl, h⟩
    · rintro ⟨a', s₁, h, h'⟩
      cases h
      exact h'

/-- Only what the second part does with what the first one gives it matters. -/
theorem attempt_bind_congr {e : ExceptT ε (StateM σ) α} {f g : α → ExceptT ε (StateM σ) β} {s : σ}
    (h : ∀ a s', e.run.run s = (.ok a, s') → (f a).run.run s' = (g a).run.run s') :
    (e >>= f).run.run s = (e >>= g).run.run s := by
  rcases he : e.run.run s with ⟨err | a, s'⟩
  · rw [attempt_bind_of_error he, attempt_bind_of_error he]
  · rw [attempt_bind_of_ok he, attempt_bind_of_ok he]
    exact h a s' he

theorem attempt_pure_eq_ok {a b : α} {s s' : σ} :
    (pure a : ExceptT ε (StateM σ) α).run.run s = (.ok b, s') ↔ a = b ∧ s = s' := by
  constructor
  · intro h
    cases h
    exact ⟨rfl, rfl⟩
  · rintro ⟨rfl, rfl⟩
    rfl

/-- A result that is there already. -/
theorem attempt_mk_bind_eq_ok {r : Except ε α} {f : α → ExceptT ε (StateM σ) β} {s s' : σ}
    {b : β} :
    (ExceptT.mk (pure r) >>= f).run.run s = (.ok b, s') ↔
      ∃ a, r = .ok a ∧ (f a).run.run s = (.ok b, s') := by
  rw [attempt_bind_eq_ok]
  constructor
  · rintro ⟨a, s₁, hr, h⟩
    obtain ⟨rfl, rfl⟩ := Prod.mk.inj (hr : (r, s) = (Except.ok a, s₁))
    exact ⟨a, rfl, h⟩
  · rintro ⟨a, rfl, h⟩
    exact ⟨a, s, rfl, h⟩

end CilProbe
