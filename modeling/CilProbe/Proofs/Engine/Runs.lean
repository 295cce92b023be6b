/-
CilProbe/Proofs/Engine/Runs.lean

What happens in a run.  Besides its result a computation that is run against a runtime
has a `Course`: the questions that it asked, with their answers, and the events that the
runtime delivered before it answered, each with the question that was pending and the
world that it was delivered in.
Courses of two computations in a row are put one behind the other (`course_bind`), so a
property of runs that composes in the same way (`Composes`) holds of a whole run if it
holds of each step (`Confined.run`).

Which steps a computation can take is read off it without a runtime: `Confined Q R` says
that it asks only questions in `Q`, and that each change it makes to the state itself is
one in `R`.  What else happens to the state happens while a question is pending.
-/
import CilProbe.Engine.Proc

namespace CilProbe

/-! ### Courses -/

/-- A question with the answer it got. -/
structure Exchange where
  /-- The question. -/
  query : Query
  /-- The answer. -/
  answer : query.Answer

/-- An event that was delivered before a question was answered. -/
structure Delivery (σ τ : Type) where
  /-- The question. -/
  pending : Query
  /-- The event. -/
  event : Event
  /-- The world that it was delivered in. -/
  world : World σ τ

/-- What happens in the course of a run, apart from its result. -/
structure Course (σ τ : Type) where
  /-- The questions asked, with their answers. -/
  exchanges : List Exchange
  /-- The events that the runtime delivered. -/
  deliveries : List (Delivery σ τ)

namespace Course

variable {σ τ : Type}

/-- Nothing happens. -/
def empty : Course σ τ := ⟨[], []⟩

instance : Append (Course σ τ) :=
  ⟨fun c c' => ⟨c.exchanges ++ c'.exchanges, c.deliveries ++ c'.deliveries⟩⟩

@[simp] theorem exchanges_append (c c' : Course σ τ) :
    (c ++ c').exchanges = c.exchanges ++ c'.exchanges := rfl

@[simp] theorem deliveries_append (c c' : Course σ τ) :
    (c ++ c').deliveries = c.deliveries ++ c'.deliveries := rfl

@[simp] theorem exchanges_empty : (empty : Course σ τ).exchanges = [] := rfl

@[simp] theorem deliveries_empty : (empty : Course σ τ).deliveries = [] := rfl

@[ext] theorem ext {c c' : Course σ τ} (h : c.exchanges = c'.exchanges)
    (h' : c.deliveries = c'.deliveries) : c = c' := by
  cases c
  cases c'
  obtain rfl := h
  obtain rfl := h'
  rfl

@[simp] theorem empty_append (c : Course σ τ) : empty ++ c = c := rfl

@[simp] theorem append_empty (c : Course σ τ) : c ++ empty = c := by
  ext1
  · exact List.append_nil _
  · exact List.append_nil _

theorem append_assoc (a b c : Course σ τ) : a ++ b ++ c = a ++ (b ++ c) := by
  ext1
  · exact List.append_assoc _ _ _
  · exact List.append_assoc _ _ _

end Course

namespace Proc

instance (σ : Type) : LawfulMonad (Proc σ) :=
  LawfulMonad.mk' (Proc σ) (fun p => bind_done p) (fun _ _ => rfl) fun p f g => bind_assoc p f g

section Runs

variable {σ τ α β : Type} (h : Host τ) (deliver : Event → World σ τ → World σ τ)

/-- Events delivered one after the other, each with the world it is delivered in. -/
def occasions : List Event → World σ τ → List (Event × World σ τ)
  | [], _ => []
  | event :: events, w => (event, w) :: occasions events (deliver event w)

theorem mem_of_mem_occasions {deliver : Event → World σ τ → World σ τ} {events : List Event}
    {o : Event × World σ τ} : ∀ {w}, o ∈ occasions deliver events w → o.1 ∈ events := by
  induction events with
  | nil => exact fun ho => absurd ho List.not_mem_nil
  | cons event events ih =>
    intro w ho
    rcases List.mem_cons.mp ho with rfl | ho
    · exact List.mem_cons_self
    · exact List.mem_cons_of_mem _ (ih ho)

/-- The world in which the runtime begins to deliver events before it answers. -/
def interrupted (q : Query) (w : World σ τ) : World σ τ :=
  { w with host := (h.interrupts q w.host).2 }

/-- The world in which the runtime answers. -/
def resumed (q : Query) (w : World σ τ) : World σ τ :=
  (h.interrupts q w.host).1.foldl (fun w e => deliver e w) (interrupted h q w)

theorem exchange_snd (q : Query) (w : World σ τ) :
    (exchange h deliver q w).2 =
      { resumed h deliver q w with host := (h.answer q (resumed h deliver q w).host).2 } := rfl

/-- What the runtime delivers before it answers. -/
def meanwhile (q : Query) (w : World σ τ) : Course σ τ :=
  ⟨[], (occasions deliver (h.interrupts q w.host).1 (interrupted h q w)).map
    fun (event, w) => ⟨q, event, w⟩⟩

/-- The course of one question. -/
def asking (q : Query) (w : World σ τ) : Course σ τ :=
  ⟨[⟨q, (exchange h deliver q w).1⟩], (meanwhile h deliver q w).deliveries⟩

/-- The course of a run. -/
def course : Proc σ α → World σ τ → Course σ τ
  | done _, _ => .empty
  | read next, w => (next w.engine).course w
  | write s next, w => next.course { w with engine := s }
  | ask q next, w =>
    asking h deliver q w ++
      (next (exchange h deliver q w).1).course (exchange h deliver q w).2

/-- Two computations in a row have their courses in a row. -/
theorem course_bind (p : Proc σ α) (f : α → Proc σ β) (w : World σ τ) :
    (p.bind f).course h deliver w =
      p.course h deliver w ++
        (f (p.run h deliver w).1).course h deliver (p.run h deliver w).2 := by
  induction p generalizing w with
  | done a => rfl
  | read next ih => exact ih w.engine w
  | write s next ih => exact ih { w with engine := s }
  | ask q next ih =>
    show asking h deliver q w ++ ((next _).bind f).course h deliver _ = _
    rw [ih, ← Course.append_assoc]
    rfl

/-- A run, all of it: the result, the course and the world in the end. -/
def Runs (p : Proc σ α) (w : World σ τ) (a : α) (c : Course σ τ) (w' : World σ τ) : Prop :=
  p.run h deliver w = (a, w') ∧ p.course h deliver w = c

variable {h deliver} {w w' : World σ τ} {c : Course σ τ}

/-- What is delivered before an answer is what the runtime has to deliver. -/
theorem interrupts_of_mem {p : Proc σ α} {d : Delivery σ τ}
    (hd : d ∈ (p.course h deliver w).deliveries) : ∃ t, d.event ∈ (h.interrupts d.pending t).1 := by
  induction p generalizing w with
  | done a => exact absurd hd List.not_mem_nil
  | read next ih => exact ih w.engine hd
  | write s next ih => exact ih hd
  | ask q next ih =>
    rcases List.mem_append.mp hd with hd | hd
    · obtain ⟨⟨event, w'⟩, hoccasion, rfl⟩ := List.mem_map.mp hd
      exact ⟨w.host, mem_of_mem_occasions hoccasion⟩
    · exact ih _ hd

theorem runs_read {next : σ → Proc σ α} {a : α} :
    (read next).Runs h deliver w a c w' ↔ (next w.engine).Runs h deliver w a c w' := Iff.rfl

theorem runs_done {a b : α} :
    (done a : Proc σ α).Runs h deliver w b c w' ↔ b = a ∧ c = .empty ∧ w' = w := by
  constructor
  · rintro ⟨hrun, rfl⟩
    cases hrun
    exact ⟨rfl, rfl, rfl⟩
  · rintro ⟨rfl, rfl, rfl⟩
    exact ⟨rfl, rfl⟩

theorem runs_query {q : Query} {a : q.Answer} :
    (query q : Proc σ q.Answer).Runs h deliver w a c w' ↔
      a = (exchange h deliver q w).1 ∧ c = asking h deliver q w ∧
        w' = (exchange h deliver q w).2 := by
  constructor
  · rintro ⟨hrun, rfl⟩
    cases hrun
    exact ⟨rfl, Course.append_empty _, rfl⟩
  · rintro ⟨rfl, rfl, rfl⟩
    exact ⟨rfl, Course.append_empty _⟩

theorem runs_bind {p : Proc σ α} {f : α → Proc σ β} {b : β} :
    (p.bind f).Runs h deliver w b c w' ↔
      ∃ a c₁ w₁ c₂, p.Runs h deliver w a c₁ w₁ ∧ (f a).Runs h deliver w₁ b c₂ w' ∧
        c = c₁ ++ c₂ := by
  constructor
  · rintro ⟨hrun, rfl⟩
    rw [run_bind] at hrun
    exact ⟨_, _, _, _, ⟨rfl, rfl⟩, ⟨hrun, rfl⟩, course_bind h deliver p f w⟩
  · rintro ⟨a, c₁, w₁, c₂, ⟨hp, rfl⟩, ⟨hf, rfl⟩, rfl⟩
    refine ⟨?_, ?_⟩
    · rw [run_bind, hp]
      exact hf
    · rw [course_bind, hp]

end Runs

/-! ### Steps of a computation -/

section Confined

variable {σ α β : Type} {Q Q' : Query → Prop} {R R' : σ → σ → Prop}

/-- Every question that the computation asks is one in `Q`, and every change that it makes to
the state, which is `s` when it begins, is one in `R`; while a question is pending anything
may happen to the state. -/
def Confined (Q : Query → Prop) (R : σ → σ → Prop) : Proc σ α → σ → Prop
  | done _, _ => True
  | read next, s => (next s).Confined Q R s
  | write s' next, s => R s s' ∧ next.Confined Q R s'
  | ask q next, _ => Q q ∧ ∀ a s, (next a).Confined Q R s

namespace Confined

theorem done (a : α) (s : σ) : (Proc.done a).Confined Q R s := trivial

theorem bind {p : Proc σ α} {f : α → Proc σ β} {s : σ} (hp : p.Confined Q R s)
    (hf : ∀ a s, (f a).Confined Q R s) : (p.bind f).Confined Q R s := by
  induction p generalizing s with
  | done a => exact hf a s
  | read next ih => exact ih s hp
  | write s' next ih => exact ⟨hp.1, ih hp.2⟩
  | ask q next ih => exact ⟨hp.1, fun a s' => ih a (hp.2 a s')⟩

theorem mono {p : Proc σ α} {s : σ} (hp : p.Confined Q R s) (hQ : ∀ q, Q q → Q' q)
    (hR : ∀ s s', R s s' → R' s s') : p.Confined Q' R' s := by
  induction p generalizing s with
  | done a => trivial
  | read next ih => exact ih s hp
  | write s' next ih => exact ⟨hR _ _ hp.1, ih hp.2⟩
  | ask q next ih => exact ⟨hQ q hp.1, fun a s' => ih a (hp.2 a s')⟩

theorem query {q : Query} (hq : Q q) (s : σ) : (Proc.query q).Confined Q R s :=
  ⟨hq, fun _ _ => trivial⟩

theorem modify {f : σ → σ} {s : σ} (hf : R s (f s)) :
    (MonadState.modifyGet fun s => (PUnit.unit, f s) : Proc σ PUnit).Confined Q R s :=
  ⟨hf, trivial⟩

end Confined

end Confined

/-! ### From steps to runs -/

section Composes

variable {σ τ α : Type} {h : Host τ} {deliver : Event → World σ τ → World σ τ}
  {T : World σ τ → Course σ τ → World σ τ → Prop} {Q : Query → Prop} {R : σ → σ → Prop}

/-- A relation between two worlds and the course from one to the other that holds of nothing
happening, and of one thing after the other if of both. -/
structure Composes (T : World σ τ → Course σ τ → World σ τ → Prop) : Prop where
  refl (w : World σ τ) : T w .empty w
  trans {w w₁ w' : World σ τ} {c c' : Course σ τ} : T w c w₁ → T w₁ c' w' → T w (c ++ c') w'

/-- The events delivered before an answer. -/
theorem Composes.meanwhile (hT : Composes T) {q : Query} {w : World σ τ}
    (hinterrupted : T w .empty (interrupted h q w))
    (hdeliver : ∀ event ∈ (h.interrupts q w.host).1, ∀ w,
      T w ⟨[], [⟨q, event, w⟩]⟩ (deliver event w)) :
    T w (meanwhile h deliver q w) (resumed h deliver q w) := by
  have hevents : ∀ (events : List Event) (w : World σ τ),
      (∀ event ∈ events, ∀ w, T w ⟨[], [⟨q, event, w⟩]⟩ (deliver event w)) →
      T w ⟨[], (occasions deliver events w).map fun (event, w) => ⟨q, event, w⟩⟩
        (events.foldl (fun w e => deliver e w) w) := by
    intro events
    induction events with
    | nil =>
      intro w _
      exact hT.refl w
    | cons event events ih =>
      intro w hevents
      exact hT.trans (hevents event (List.mem_cons_self) w)
        (ih (deliver event w) fun e he => hevents e (List.mem_cons_of_mem _ he))
  exact hT.trans hinterrupted (hevents _ _ hdeliver)

/-- A question, from the events before its answer and the answer. -/
theorem Composes.exchange (hT : Composes T) {q : Query} {w : World σ τ}
    (hinterrupted : T w .empty (interrupted h q w))
    (hdeliver : ∀ event ∈ (h.interrupts q w.host).1, ∀ w,
      T w ⟨[], [⟨q, event, w⟩]⟩ (deliver event w))
    (hanswer : T (resumed h deliver q w) ⟨[⟨q, (Proc.exchange h deliver q w).1⟩], []⟩
      (Proc.exchange h deliver q w).2) :
    T w (asking h deliver q w) (Proc.exchange h deliver q w).2 := by
  have hall := hT.trans (hT.meanwhile hinterrupted hdeliver) hanswer
  have hcourse : (Proc.meanwhile h deliver q w ++ ⟨[⟨q, (Proc.exchange h deliver q w).1⟩], []⟩ :
      Course σ τ) = asking h deliver q w := by
    ext1
    · rfl
    · exact List.append_nil _
  rw [hcourse] at hall
  exact hall

/-- What holds of every step that a computation can take holds of its runs. -/
theorem Confined.runs (hT : Composes T)
    (hstep : ∀ (w : World σ τ) (s : σ), R w.engine s → T w .empty { w with engine := s })
    (hask : ∀ q w, Q q → T w (asking h deliver q w) (Proc.exchange h deliver q w).2)
    {p : Proc σ α} {w w' : World σ τ} {a : α} {c : Course σ τ} (hp : p.Confined Q R w.engine)
    (hruns : p.Runs h deliver w a c w') : T w c w' := by
  obtain ⟨hrun, rfl⟩ := hruns
  obtain rfl : (p.run h deliver w).2 = w' := congrArg Prod.snd hrun
  clear hrun
  induction p generalizing w with
  | done a => exact hT.refl w
  | read next ih => exact ih w.engine hp
  | write s next ih => exact hT.trans (hstep w s hp.1) (ih (w := { w with engine := s }) hp.2)
  | ask q next ih => exact hT.trans (hask q w hp.1) (ih _ (hp.2 _ _))

/-- A computation asks only the questions that it can ask. -/
theorem Confined.query_of_mem {p : Proc σ α} {w w' : World σ τ} {a : α} {c : Course σ τ}
    (hp : p.Confined Q R w.engine) (hruns : p.Runs h deliver w a c w') :
    ∀ x ∈ c.exchanges, Q x.query := by
  have hT : Composes fun (_ : World σ τ) c (_ : World σ τ) => ∀ x ∈ c.exchanges, Q x.query :=
    { refl := fun _ _ hx => absurd hx List.not_mem_nil
      trans := fun hc hc' x hx => (List.mem_append.mp hx).elim (hc x) (hc' x) }
  refine hp.runs hT (fun w s _ => hT.refl w) (fun q w hq x hx => ?_) hruns
  obtain rfl := List.mem_singleton.mp hx
  exact hq

/-- Events are delivered only before the answers to them. -/
theorem Confined.pending_of_mem {p : Proc σ α} {w w' : World σ τ} {a : α} {c : Course σ τ}
    (hp : p.Confined Q R w.engine) (hruns : p.Runs h deliver w a c w') :
    ∀ d ∈ c.deliveries, Q d.pending := by
  have hT : Composes fun (_ : World σ τ) c (_ : World σ τ) => ∀ d ∈ c.deliveries, Q d.pending :=
    { refl := fun _ _ hd => absurd hd List.not_mem_nil
      trans := fun hc hc' d hd => (List.mem_append.mp hd).elim (hc d) (hc' d) }
  refine hp.runs hT (fun w s _ => hT.refl w) (fun q w hq d hd => ?_) hruns
  obtain ⟨_, -, rfl⟩ := List.mem_map.mp hd
  exact hq

end Composes

end Proc

/-! ### Computations that may fail -/

namespace Attempt

variable {σ τ α β : Type} {h : Host τ} {deliver : Event → World σ τ → World σ τ}
  {w w' : World σ τ} {c : Course σ τ}

/-- A computation in two parts that may fail ends with the first part, or after both. -/
theorem runs_bind {x : Attempt σ α} {f : α → Attempt σ β} {r : Except Error β} :
    (x >>= f).run.Runs h deliver w r c w' ↔
      (∃ e, r = .error e ∧ x.run.Runs h deliver w (.error e) c w') ∨
      ∃ a c₁ w₁ c₂, x.run.Runs h deliver w (.ok a) c₁ w₁ ∧
        (f a).run.Runs h deliver w₁ r c₂ w' ∧ c = c₁ ++ c₂ := by
  show (Proc.bind x.run _).Runs h deliver w r c w' ↔ _
  rw [Proc.runs_bind]
  constructor
  · rintro ⟨e | a, c₁, w₁, c₂, hx, hf, rfl⟩
    · obtain ⟨rfl, rfl, rfl⟩ := Proc.runs_done.mp hf
      rw [Course.append_empty]
      exact .inl ⟨e, rfl, hx⟩
    · exact .inr ⟨a, c₁, w₁, c₂, hx, hf, rfl⟩
  · rintro (⟨e, rfl, hx⟩ | ⟨a, c₁, w₁, c₂, hx, hf, rfl⟩)
    · exact ⟨.error e, c, w', .empty, hx, ⟨rfl, rfl⟩, (Course.append_empty c).symm⟩
    · exact ⟨.ok a, c₁, w₁, c₂, hx, hf, rfl⟩

theorem runs_pure {a : α} {r : Except Error α} :
    (pure a : Attempt σ α).run.Runs h deliver w r c w' ↔ r = .ok a ∧ c = .empty ∧ w' = w :=
  Proc.runs_done

theorem runs_mk {x r : Except Error α} :
    (ExceptT.mk (pure x) : Attempt σ α).run.Runs h deliver w r c w' ↔
      r = x ∧ c = .empty ∧ w' = w :=
  Proc.runs_done

/-- Looking at the state. -/
theorem runs_get_bind {f : σ → Attempt σ β} {r : Except Error β} :
    ((get : Attempt σ σ) >>= f).run.Runs h deliver w r c w' ↔
      (f w.engine).run.Runs h deliver w r c w' := Iff.rfl

/-- Going on with a result that is there already. -/
theorem runs_mk_bind {x : Except Error α} {f : α → Attempt σ β} {r : Except Error β} :
    (ExceptT.mk (pure x) >>= f).run.Runs h deliver w r c w' ↔
      (∃ e, x = .error e ∧ r = .error e ∧ c = .empty ∧ w' = w) ∨
      ∃ a, x = .ok a ∧ (f a).run.Runs h deliver w r c w' := by
  cases x with
  | error e =>
    constructor
    · intro hruns
      exact .inl ⟨e, rfl, Proc.runs_done.mp hruns⟩
    · rintro (⟨_, ⟨⟩, hdone⟩ | ⟨_, ⟨⟩, -⟩)
      exact Proc.runs_done.mpr hdone
  | ok a =>
    constructor
    · intro hruns
      exact .inr ⟨a, rfl, hruns⟩
    · rintro (⟨_, ⟨⟩, -⟩ | ⟨_, ⟨⟩, hruns⟩)
      exact hruns

/-- A computation that cannot fail, as one that may. -/
theorem runs_lift {p : Proc σ α} {r : Except Error α} :
    (ExceptT.lift p : Attempt σ α).run.Runs h deliver w r c w' ↔
      ∃ a, r = .ok a ∧ p.Runs h deliver w a c w' := by
  show (Proc.bind p fun a => .done (.ok a)).Runs h deliver w r c w' ↔ _
  rw [Proc.runs_bind]
  constructor
  · rintro ⟨a, c₁, w₁, c₂, hp, hdone, rfl⟩
    obtain ⟨rfl, rfl, rfl⟩ := Proc.runs_done.mp hdone
    rw [Course.append_empty]
    exact ⟨a, rfl, hp⟩
  · rintro ⟨a, rfl, hp⟩
    exact ⟨a, c, w', .empty, hp, ⟨rfl, rfl⟩, (Course.append_empty c).symm⟩

variable {Q : Query → Prop} {R : σ → σ → Prop}

theorem confined_bind {x : Attempt σ α} {f : α → Attempt σ β} {s : σ}
    (hx : x.run.Confined Q R s) (hf : ∀ a s, (f a).run.Confined Q R s) :
    (x >>= f).run.Confined Q R s := by
  show (Proc.bind x.run _).Confined Q R s
  refine Proc.Confined.bind hx fun r s => ?_
  cases r with
  | ok a => exact hf a s
  | error e => trivial

theorem confined_pure (a : α) (s : σ) : (pure a : Attempt σ α).run.Confined Q R s := trivial

theorem confined_get (s : σ) : (get : Attempt σ σ).run.Confined Q R s := trivial

theorem confined_mk (r : Except Error α) (s : σ) :
    (ExceptT.mk (pure r) : Attempt σ α).run.Confined Q R s := trivial

/-- A relation of computations that may fail which they are in if their parts are. -/
structure Closed (K : (α : Type) → Attempt σ α → Attempt σ α → Prop) : Prop where
  known {α : Type} (r : Except Error α) : K α (ExceptT.mk (pure r)) (ExceptT.mk (pure r))
  bind {α β : Type} {x x' : Attempt σ α} {f f' : α → Attempt σ β} :
    K α x x' → (∀ a, K β (f a) (f' a)) → K β (x >>= f) (x' >>= f')

namespace Closed

section

variable {K : (α : Type) → Attempt σ α → Attempt σ α → Prop} (hK : Closed K)
include hK

theorem pure (a : α) : K α (Pure.pure a) (Pure.pure a) := hK.known (.ok a)

theorem map {x x' : Attempt σ α} (f : α → β) (hx : K α x x') : K β (f <$> x) (f <$> x') := by
  rw [map_eq_pure_bind, map_eq_pure_bind]
  exact hK.bind hx fun a => hK.pure (f a)

end

/-- A property of computations is a relation of computations with themselves. -/
theorem of_property {K : (α : Type) → Attempt σ α → Prop}
    (hknown : ∀ {α : Type} (r : Except Error α), K α (ExceptT.mk (Pure.pure r)))
    (hbind : ∀ {α β : Type} {x : Attempt σ α} {f : α → Attempt σ β},
      K α x → (∀ a, K β (f a)) → K β (x >>= f)) :
    Closed fun α x x' => x = x' ∧ K α x where
  known r := ⟨rfl, hknown r⟩
  bind hx hf := by
    obtain rfl := funext fun a => (hf a).1
    exact ⟨congrArg (· >>= _) hx.1, hbind hx.2 fun a => (hf a).2⟩

end Closed

theorem closed_confined :
    Closed fun α (x x' : Attempt σ α) => x = x' ∧ ∀ s, x.run.Confined Q R s :=
  .of_property confined_mk fun hx hf s => confined_bind (hx s) hf

end Attempt

end CilProbe
