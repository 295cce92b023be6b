/-
CilProbe/Proofs/Cil/Operands.lean

Operands whose targets are renamed.  `Operand.map` is the pure form of
`Operand.mapTargetsM`: a run that computes a new target for each old one ends
with an operand that agrees with the old one under any key that the steps
respect (`run_mapTargetsM_eq_ok`).  Renaming leaves the kind of an operand alone,
and with it the bytes that the instruction takes.
-/
import CilProbe.Proofs.Cil.Encoding
import CilProbe.Proofs.Outcome

namespace CilProbe

namespace Operand

variable {τ σ υ : Type}

/-! ### Renaming targets -/

/-- Replace every branch target. -/
def map (f : τ → σ) : Operand τ → Operand σ
  | .none => .none
  | .int8 v => .int8 v
  | .uint8 v => .uint8 v
  | .uint16 v => .uint16 v
  | .int32 v => .int32 v
  | .int64 v => .int64 v
  | .float32 b => .float32 b
  | .float64 b => .float64 b
  | .token t => .token t
  | .target t => .target (f t)
  | .switch ts => .switch (ts.map f)

theorem map_map (f : τ → σ) (g : σ → υ) (o : Operand τ) : (o.map f).map g = o.map (g ∘ f) := by
  cases o <;> simp [map]

theorem targets_map (f : τ → σ) (o : Operand τ) : (o.map f).targets = o.targets.map f := by
  cases o <;> rfl

/-- What is renamed to a displacement is one. -/
theorem exists_target_of_map_eq {f : τ → σ} {o : Operand τ} {t : σ} (h : o.map f = .target t) :
    ∃ t', o = .target t' ∧ f t' = t := by
  cases o <;> cases h
  exact ⟨_, rfl, rfl⟩

/-- Only what happens to the targets there are matters. -/
theorem map_congr {f g : τ → σ} {o : Operand τ} (h : ∀ t ∈ o.targets, f t = g t) :
    o.map f = o.map g := by
  cases o
  case target t => rw [map, map, h t (by simp [targets])]
  case switch ts => exact congrArg Operand.switch (List.map_congr_left h)
  all_goals rfl

/-- Targets that keep their names are all there is to keep. -/
theorem map_eq_self {f : τ → τ} {o : Operand τ} (h : ∀ t ∈ o.targets, f t = t) : o.map f = o := by
  rw [map_congr (g := id) h]
  cases o <;> simp [map]

/-- Computing targets without a failure is renaming them. -/
theorem mapTargetsM_eq_ok {ε : Type} {f : τ → Except ε σ} {g : τ → σ} {o : Operand τ}
    (h : ∀ t ∈ o.targets, f t = .ok (g t)) : o.mapTargetsM f = .ok (o.map g) := by
  cases o
  case target t =>
    refine bind_eq_ok.mpr ⟨g t, h t (by simp [targets]), rfl⟩
  case switch ts =>
    refine bind_eq_ok.mpr ⟨ts.map g, mapM_eq_ok.mpr ?_, rfl⟩
    exact List.forall₂_map_right_iff.mpr (List.forall₂_same.mpr h)
  all_goals rfl

/-- A run that computes new targets keeps everything else.  The steps start from
`Good` states and end in them, and make targets of which `key` says what `g` says
of the old ones; later steps do not change what `key` says. -/
theorem run_mapTargetsM_eq_ok {ε S : Type} {f : τ → StateT S (Except ε) σ} {Good : S → Prop}
    {key : S → σ → υ} {g : τ → υ} {o : Operand τ} {o' : Operand σ} {s s' : S}
    (hstep : ∀ t ∈ o.targets, ∀ s b s', Good s → (f t).run s = .ok (b, s') →
      Good s' ∧ key s' b = g t ∧ ∀ t b, key s b = g t → key s' b = g t)
    (hs : Good s) (h : (o.mapTargetsM f).run s = .ok (o', s')) :
    Good s' ∧ o'.map (key s') = o.map g ∧ ∀ t b, key s b = g t → key s' b = g t := by
  cases o
  case target t =>
    obtain ⟨b, s₁, hb, h⟩ := run_bind_eq_ok.mp h
    obtain ⟨rfl, rfl⟩ := run_pure_eq_ok.mp h
    obtain ⟨hs₁, hkey, hkeep⟩ := hstep t (by simp [targets]) s b s₁ hs hb
    exact ⟨hs₁, by rw [map, map, hkey], hkeep⟩
  case switch ts =>
    obtain ⟨bs, s₁, hbs, h⟩ := run_bind_eq_ok.mp h
    obtain ⟨rfl, rfl⟩ := run_pure_eq_ok.mp h
    obtain ⟨hs₁, hall, hkeep⟩ := run_mapM_eq_ok Good (fun t b s => key s b = g t) hstep hs hbs
    have hmap : bs.map (key s₁) = ts.map g := by
      refine (List.forall₂_eq_eq_eq ▸ ?_ : bs.map (key s₁) = ts.map g)
      rw [List.forall₂_map_left_iff, List.forall₂_map_right_iff]
      exact hall.flip
    exact ⟨hs₁, by rw [map, map, hmap], hkeep⟩
  all_goals
    obtain ⟨rfl, rfl⟩ := run_pure_eq_ok.mp h
    exact ⟨hs, rfl, fun _ _ h => h⟩

/-- A run that can compute a new target for each old one gets through. -/
theorem exists_run_mapTargetsM {ε S : Type} {f : τ → StateT S (Except ε) σ} (Good : S → Prop)
    {o : Operand τ}
    (hstep : ∀ t ∈ o.targets, ∀ s, Good s → ∃ b s', (f t).run s = .ok (b, s') ∧ Good s') {s : S}
    (hs : Good s) : ∃ o' s', (o.mapTargetsM f).run s = .ok (o', s') ∧ Good s' := by
  cases o
  case target t =>
    obtain ⟨b, s₁, hb, hs₁⟩ := hstep t (by simp [targets]) s hs
    exact ⟨.target b, s₁, run_bind_eq_ok.mpr ⟨b, s₁, hb, rfl⟩, hs₁⟩
  case switch ts =>
    obtain ⟨bs, s₁, hbs, hs₁⟩ := exists_run_mapM Good hstep hs
    exact ⟨.switch bs, s₁, run_bind_eq_ok.mpr ⟨bs, s₁, hbs, rfl⟩, hs₁⟩
  all_goals exact ⟨_, s, rfl, hs⟩

/-! ### Kinds -/

/-- The operand is of the given kind. -/
def HasKind : OperandKind → Operand τ → Prop
  | .none, .none | .shortInt, .int8 _ | .shortVar, .uint8 _ | .var, .uint16 _
  | .int32, .int32 _ | .int64, .int64 _ | .float32, .float32 _ | .float64, .float64 _
  | .token, .token _ | .shortBranch, .target _ | .branch, .target _ | .switch, .switch _ => True
  | _, _ => False

theorem hasKind_of_encodable {next : Nat} {kind : OperandKind} {o : Operand Offset}
    (h : o.Encodable next kind) : o.HasKind kind := by
  cases kind <;> cases o <;> trivial

/-- An operand that can be written reaches all its targets. -/
theorem longReach_of_encodable {next : Nat} {kind : OperandKind} {o : Operand Offset}
    (h : o.Encodable next kind) : ∀ t ∈ o.targets, LongReach (displacement next t) := by
  cases kind <;> cases o <;> try exact h.elim
  case switch.switch ts => exact h.2
  case branch.target t => exact List.forall_mem_singleton.mpr h
  case shortBranch.target t => exact List.forall_mem_singleton.mpr (ShortReach.long h)
  all_goals simp [targets]

theorem hasKind_map {kind : OperandKind} {f : τ → σ} {o : Operand τ} :
    (o.map f).HasKind kind ↔ o.HasKind kind := by
  cases kind <;> cases o <;> exact Iff.rfl

theorem width_map {kind : OperandKind} (f : τ → σ) (o : Operand τ) :
    (o.map f).width kind = o.width kind := by
  cases o <;> simp [map, width]

/-- An operand that is a displacement has a single target. -/
theorem exists_target_of_hasKind {o : Operand τ} {kind : OperandKind} (h : o.HasKind kind)
    (hkind : kind = .shortBranch ∨ kind = .branch) : ∃ t, o = .target t := by
  rcases hkind with rfl | rfl <;> cases o <;> first | exact h.elim | exact ⟨_, rfl⟩

end Operand

namespace Instruction

variable {τ σ : Type}

/-- The instruction with every branch target replaced. -/
def map (f : τ → σ) (i : Instruction τ) : Instruction σ := ⟨i.offset, i.opcode, i.operand.map f⟩

/-- The code is known, and the operand is of the kind that it announces. -/
def Known (i : Instruction τ) : Prop :=
  i.opcode.info? = some i.opcode.info ∧ i.operand.HasKind i.opcode.info.operand

theorem Encodable.known {i : Instruction Offset} (h : i.Encodable) : i.Known :=
  ⟨h.1, Operand.hasKind_of_encodable h.2⟩

/-- The instruction in its long form. -/
theorem Known.longForm {i : Instruction τ} (h : i.Known) :
    (⟨i.offset, i.opcode.longForm, i.operand⟩ : Instruction τ).Known := by
  by_cases hs : i.opcode.isShortBranch
  · have hf := Opcode.forms_of_isShortBranch hs
    obtain ⟨t, ht⟩ := Operand.exists_target_of_hasKind h.2 (.inl hf.operand_short)
    refine ⟨hf.info?_long, ?_⟩
    show i.operand.HasKind i.opcode.longForm.info.operand
    rw [hf.operand_long, ht]
    trivial
  · rw [Opcode.longForm_of_not_isShortBranch hs]
    exact h

theorem size_eq_width (i : Instruction τ) :
    i.size = i.opcode.size + i.operand.width i.opcode.info.operand := by
  cases hop : i.operand <;> simp [size, Operand.width, hop]

end Instruction

/-! ### What instructions say -/

/-- What an instruction says, apart from where it stands and which form a branch is
written in. -/
structure Act (τ : Type) where
  /-- The operation code, in its long form. -/
  opcode : Opcode
  /-- The operand. -/
  operand : Operand τ
  deriving DecidableEq, Repr

namespace Act

variable {τ σ υ : Type}

/-- The same with every branch target replaced. -/
def map (f : τ → σ) (a : Act τ) : Act σ := ⟨a.opcode, a.operand.map f⟩

theorem map_map (f : τ → σ) (g : σ → υ) (a : Act τ) : (a.map f).map g = a.map (g ∘ f) := by
  rw [map, map, map, Operand.map_map]

end Act

/-- What an instruction says. -/
def Instruction.act {τ : Type} (i : Instruction τ) : Act τ := ⟨i.opcode.longForm, i.operand⟩

theorem Instruction.act_map {τ σ : Type} (f : τ → σ) (i : Instruction τ) :
    (i.map f).act = i.act.map f := rfl

end CilProbe
