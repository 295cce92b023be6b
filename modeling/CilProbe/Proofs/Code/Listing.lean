/-
CilProbe/Proofs/Code/Listing.lean

Labels mean the same for good.  `Extends l l'` says that `l'` has every label of `l`
bound as before, and perhaps more labels; making labels for positions of the
initial code extends a listing (`labelAt_extends`), and the label made stands for
what is at the position.

From this the listing of decoded code is a mirror of the code: one node for each
instruction, branches in their long form, and every target a label that stands
for the node of the instruction there (`mirrors_ofInstructions`).
-/
import CilProbe.Code.Listing
import CilProbe.Proofs.Cil.Operands
import CilProbe.Proofs.Cil.Positions

namespace CilProbe

namespace Listing

variable {l l' l'' : Listing}

/-- Every instruction has a known code and the operand that belongs to it. -/
def Known (l : Listing) : Prop := ∀ n ∈ l.nodes, n.instruction.Known

/-- The same for the nodes of some numbers. -/
def KnownIn (l : Listing) (ids : List NodeId) : Prop :=
  ∀ id ∈ ids, ∀ n, l.nodes[id]? = some n → n.instruction.Known

theorem Known.knownIn {l : Listing} (h : l.Known) (ids : List NodeId) : l.KnownIn ids :=
  fun _ _ n hn => h n (Array.mem_of_getElem? hn)

/-! ### What labels stand for -/

theorem lt_of_binding {label : Label} (h : l.binding label ≠ .unbound) :
    label < l.bindings.size := by
  rcases Nat.lt_or_ge label l.bindings.size with hlt | hge
  · exact hlt
  · exact (h (by simp [binding, Array.getElem?_eq_none hge])).elim

theorem binding_addLabel (b : Binding) (label : Label) :
    (l.addLabel b).2.binding label = if label = l.bindings.size then b else l.binding label := by
  unfold addLabel binding
  rw [Array.getElem?_push]
  split <;> rfl

theorem binding_addLabel_of_bound (b : Binding) {label : Label}
    (h : l.binding label ≠ .unbound) : (l.addLabel b).2.binding label = l.binding label := by
  rw [binding_addLabel, if_neg (Nat.ne_of_lt (lt_of_binding h))]

theorem binding_rebindEnd (id : NodeId) (label : Label) :
    (l.rebindEnd id).binding label =
      if l.binding label = .atEnd then .node id else l.binding label := by
  unfold rebindEnd binding
  rw [Array.getElem?_map]
  rcases l.bindings[label]? with - | b
  · rfl
  · rfl

theorem binding_bind (label : Label) (id : NodeId) (label' : Label) :
    (l.bind label id).binding label' =
      if label = label' ∧ label < l.bindings.size then .node id else l.binding label' := by
  unfold bind binding
  rw [Array.getElem?_setIfInBounds]
  by_cases heq : label = label'
  · subst heq
    by_cases hlt : label < l.bindings.size
    · simp [hlt]
    · simp [hlt]
  · simp [heq]

/-! ### More labels -/

/-- The second listing has the labels of the first, bound as they were, for the
same initial code in the same order. -/
structure Extends (l l' : Listing) : Prop where
  order : l'.order = l.order
  positionNodes : l'.positionNodes = l.positionNodes
  initialSize : l'.initialSize = l.initialSize
  binding : ∀ label, l.binding label ≠ .unbound → l'.binding label = l.binding label

namespace Extends

protected theorem refl (l : Listing) : Extends l l := ⟨rfl, rfl, rfl, fun _ _ => rfl⟩

protected theorem trans (h : Extends l l') (h' : Extends l' l'') : Extends l l'' where
  order := h'.order.trans h.order
  positionNodes := h'.positionNodes.trans h.positionNodes
  initialSize := h'.initialSize.trans h.initialSize
  binding label hbound := by
    have hlabel := h.binding label hbound
    rw [h'.binding label (hlabel ▸ hbound), hlabel]

theorem bindingAt? (h : Extends l l') (offset : Offset) :
    l'.bindingAt? offset = l.bindingAt? offset := by
  unfold Listing.bindingAt?
  rw [h.positionNodes, h.initialSize]

end Extends

/-- Labels made for positions stand for what is there. -/
def PositionsAgree (l : Listing) : Prop :=
  ∀ (offset : Offset) (label : Label), l.positionLabels[offset]? = some label →
    l.bindingAt? offset = some (l.binding label)

theorem ne_unbound_of_bindingAt? {offset : Offset} {b : Binding}
    (h : l.bindingAt? offset = some b) : b ≠ .unbound := by
  rintro rfl
  unfold bindingAt? at h
  split at h
  · cases h
  · split at h <;> cases h

/-- The label for a position stands for what is there, and no label changes. -/
theorem labelAt_extends {offset : Offset} {label : Label} (hl : l.PositionsAgree)
    (h : (labelAt offset).run l = .ok (label, l')) :
    Extends l l' ∧ l'.PositionsAgree ∧ l'.nodes = l.nodes ∧
      l.bindingAt? offset = some (l'.binding label) := by
  simp only [labelAt, StateT.run] at h
  split at h
  · next hknown =>
    cases h
    exact ⟨.refl l, hl, rfl, hl offset label hknown⟩
  · split at h
    · cases h
    · next b hb =>
      cases h
      have hkeep : ∀ label, l.binding label ≠ .unbound →
          (l.addLabel b).2.binding label = l.binding label :=
        fun label hbound => binding_addLabel_of_bound b hbound
      have hnew : (l.addLabel b).2.binding l.bindings.size = b := by
        rw [binding_addLabel, if_pos rfl]
      refine ⟨⟨rfl, rfl, rfl, hkeep⟩, ?_, rfl, ?_⟩
      · -- the position that was asked for has the new label, the others keep theirs
        intro offset' label' hlabel'
        show l.bindingAt? offset' = some ((l.addLabel b).2.binding label')
        rw [Std.HashMap.getElem?_insert] at hlabel'
        split at hlabel'
        · next heq =>
          obtain rfl := eq_of_beq heq
          cases hlabel'
          rw [hb]
          exact congrArg some hnew.symm
        · have hold := hl offset' label' hlabel'
          rw [hold, hkeep label' (ne_unbound_of_bindingAt? hold)]
      · rw [hb]
        exact congrArg some hnew.symm

/-! ### What nodes say -/

/-- What a node says, with targets as what their labels stand for. -/
def actOf (l : Listing) (id : NodeId) : Option (Act Binding) :=
  (l.nodes[id]?).map fun n => n.instruction.act.map l.binding

theorem actOf_of_node {id : NodeId} {n : Node} (h : l.nodes[id]? = some n) :
    l.actOf id = some (n.instruction.act.map l.binding) := by
  rw [actOf, h]
  rfl

/-! ### Decoded code -/

/-- What a branch to a position of the initial code goes to, if there is an
instruction. -/
def destination? (l : Listing) (target : Offset) : Option Binding :=
  (l.positionNodes[target]?).map .node

/-- A node says what an instruction of the initial code says. -/
structure Mirror (l : Listing) (i : Instruction Offset) (n : Node) : Prop where
  origin : n.origin = some i.offset
  opcode : n.instruction.opcode = i.opcode.longForm
  operand : n.instruction.operand.map (fun label => some (l.binding label)) =
    i.operand.map l.destination?

theorem Extends.destination? (h : Extends l l') (target : Offset) :
    l'.destination? target = l.destination? target := by
  rw [Listing.destination?, Listing.destination?, h.positionNodes]

theorem ne_unbound_of_destination? {target : Offset} {b : Binding}
    (h : l.destination? target = some b) : b ≠ .unbound := by
  rintro rfl
  obtain ⟨id, -, hid⟩ := Option.map_eq_some_iff.mp h
  cases hid

namespace Mirror

variable {i : Instruction Offset} {n : Node}

/-- A label in the mirror of an instruction is one of the instruction's targets. -/
theorem exists_target (h : Mirror l i n) {label : Label}
    (hlabel : label ∈ n.instruction.operand.targets) :
    ∃ t ∈ i.operand.targets, l.destination? t = some (l.binding label) := by
  have hmem := List.mem_map_of_mem (f := fun label => some (l.binding label)) hlabel
  rw [← Operand.targets_map, h.operand, Operand.targets_map] at hmem
  exact List.mem_map.mp hmem

/-- Every target of the instruction is an instruction. -/
theorem exists_node (h : Mirror l i n) {t : Offset} (ht : t ∈ i.operand.targets) :
    ∃ id, l.positionNodes[t]? = some id := by
  have hmem := List.mem_map_of_mem (f := l.destination?) ht
  rw [← Operand.targets_map, ← h.operand, Operand.targets_map] at hmem
  obtain ⟨label, -, hlabel⟩ := List.mem_map.mp hmem
  obtain ⟨id, hid, -⟩ := Option.map_eq_some_iff.mp hlabel.symm
  exact ⟨id, hid⟩

/-- Labels that stand for nodes are all that a mirror needs. -/
theorem keep (h : Mirror l i n) (hnodes : l'.positionNodes = l.positionNodes)
    (hkeep : ∀ label id, l.binding label = .node id → l'.binding label = .node id) :
    Mirror l' i n where
  origin := h.origin
  opcode := h.opcode
  operand := by
    have hdest : l'.destination? = l.destination? := by
      funext t
      rw [Listing.destination?, Listing.destination?, hnodes]
    rw [hdest, ← h.operand]
    refine Operand.map_congr fun label hlabel => ?_
    obtain ⟨t, -, ht⟩ := h.exists_target hlabel
    obtain ⟨id, -, hid⟩ := Option.map_eq_some_iff.mp ht
    rw [hkeep label id hid.symm, hid]

theorem mono (h : Mirror l i n) (hl : Extends l l') : Mirror l' i n :=
  h.keep hl.positionNodes fun label id hid => by
    rw [hl.binding label (by rw [hid]; exact Binding.noConfusion), hid]

/-- The mirror of a known instruction is one. -/
theorem known (h : Mirror l i n) (hi : i.Known) : n.instruction.Known := by
  have hkind : n.instruction.operand.HasKind i.opcode.longForm.info.operand := by
    rw [← Operand.hasKind_map (f := fun label => some (l.binding label)), h.operand,
      Operand.hasKind_map]
    exact hi.longForm.2
  unfold Instruction.Known
  rw [h.opcode]
  exact ⟨hi.longForm.1, hkind⟩

/-- What the mirror of an instruction says: the same, with targets as the nodes
that they are the positions of. -/
theorem act (h : Mirror l i n) :
    n.instruction.act.map l.binding =
      i.act.map fun t => .node ((l.positionNodes[t]?).getD 0) := by
  have hmap := congrArg (Operand.map fun b => b.getD (.node 0)) h.operand
  rw [Operand.map_map, Operand.map_map] at hmap
  unfold Instruction.act Act.map
  rw [h.opcode, Opcode.longForm_longForm]
  refine congrArg (Act.mk i.opcode.longForm) (hmap.trans ?_)
  refine Operand.map_congr fun t _ => ?_
  show (l.destination? t).getD (.node 0) = _
  unfold Listing.destination?
  rcases l.positionNodes[t]? with - | id <;> rfl

end Mirror

/-- The label for the target of a branch stands for the instruction there. -/
theorem targetLabel_extends {source target : Offset} {label : Label} (hl : l.PositionsAgree)
    (h : (targetLabel source target).run l = .ok (label, l')) :
    Extends l l' ∧ l'.PositionsAgree ∧ l'.nodes = l.nodes ∧
      l.destination? target = some (l'.binding label) := by
  obtain ⟨l₁, l₂, hget, h⟩ := run_bind_eq_ok.mp h
  obtain ⟨rfl, rfl⟩ : l = l₁ ∧ l = l₂ := by
    rw [StateT.run_get, pure_eq_ok] at hget
    exact Prod.mk.inj hget
  rcases e : l.positionNodes[target]? with - | id
  · rw [e] at h
    cases h
  · rw [e] at h
    obtain ⟨hext, hagree, hnodes, hat⟩ := labelAt_extends hl h
    refine ⟨hext, hagree, hnodes, ?_⟩
    rw [bindingAt?, e] at hat
    rw [destination?, e]
    exact hat

/-- An instruction of the initial code becomes one more node, its mirror. -/
theorem addInitial_extends {i : Instruction Offset} (hl : l.PositionsAgree)
    (h : (addInitial i).run l = .ok ((), l')) :
    Extends l l' ∧ l'.PositionsAgree ∧ ∃ n, l'.nodes = l.nodes.push n ∧ Mirror l' i n := by
  obtain ⟨operand, l₁, hoperand, h⟩ := run_bind_eq_ok.mp h
  -- asking for the labels of the targets adds labels and no nodes
  have htargets : ∀ t ∈ i.operand.targets, ∀ s b s',
      (Extends l s ∧ s.PositionsAgree ∧ s.nodes = l.nodes) →
      (targetLabel i.offset t).run s = .ok (b, s') →
      (Extends l s' ∧ s'.PositionsAgree ∧ s'.nodes = l.nodes) ∧
        some (s'.binding b) = l.destination? t ∧
        ∀ t b, some (s.binding b) = l.destination? t → some (s'.binding b) = l.destination? t := by
    rintro t - s b s' ⟨hext, hagree, hnodes⟩ hrun
    obtain ⟨hext', hagree', hnodes', hb⟩ := targetLabel_extends hagree hrun
    rw [hext.destination?] at hb
    refine ⟨⟨hext.trans hext', hagree', hnodes'.trans hnodes⟩, hb.symm, ?_⟩
    intro t b hbound
    rw [hext'.binding b (ne_unbound_of_destination? hbound.symm), hbound]
  obtain ⟨⟨hext, hagree, hnodes⟩, hmap, -⟩ :=
    Operand.run_mapTargetsM_eq_ok htargets ⟨.refl l, hl, rfl⟩ hoperand
  cases h
  have hext' : Extends l₁
      { l₁ with nodes := l₁.nodes.push ⟨⟨i.offset, i.opcode.longForm, operand⟩, some i.offset⟩ } :=
    ⟨rfl, rfl, rfl, fun _ _ => rfl⟩
  refine ⟨hext.trans hext', hagree, ⟨⟨i.offset, i.opcode.longForm, operand⟩, some i.offset⟩,
    ?_, rfl, rfl, ?_⟩
  · rw [← hnodes]
  · rw [show Listing.destination? _ = l.destination? from funext (hext.trans hext').destination?]
    exact hmap

/-- The nodes of a run of instructions are their mirrors, behind the nodes there
were. -/
theorem forM_addInitial_extends {code : List (Instruction Offset)} (hl : l.PositionsAgree)
    (h : (code.forM addInitial).run l = .ok ((), l')) :
    Extends l l' ∧ l'.PositionsAgree ∧ l'.nodes.size = l.nodes.size + code.length ∧
      (∀ k < l.nodes.size, l'.nodes[k]? = l.nodes[k]?) ∧
      ∀ k i, code[k]? = some i → ∃ n, l'.nodes[l.nodes.size + k]? = some n ∧ Mirror l' i n := by
  induction code generalizing l with
  | nil =>
    obtain ⟨-, rfl⟩ := run_pure_eq_ok.mp h
    exact ⟨.refl l, hl, rfl, fun _ _ => rfl, by simp⟩
  | cons i code ih =>
    obtain ⟨⟨⟩, l₁, hi, h⟩ := run_bind_eq_ok.mp h
    obtain ⟨hext, hagree, n, hnodes, hmirror⟩ := addInitial_extends hl hi
    obtain ⟨hext', hagree', hsize, hold, hnew⟩ := ih hagree h
    have hsize₁ : l₁.nodes.size = l.nodes.size + 1 := by rw [hnodes, Array.size_push]
    refine ⟨hext.trans hext', hagree', ?_, ?_, ?_⟩
    · rw [hsize, hsize₁, List.length_cons]
      omega
    · intro k hk
      rw [hold k (by omega), hnodes, Array.getElem?_push, if_neg (by omega)]
    · intro k j hj
      rcases k with - | k
      · obtain rfl : i = j := by simpa using hj
        refine ⟨n, ?_, hmirror.mono hext'⟩
        rw [hold _ (by omega), hnodes, Array.getElem?_push, if_pos (Nat.add_zero _)]
      · obtain ⟨n', hn', hmirror'⟩ := hnew k j hj
        refine ⟨n', ?_, hmirror'⟩
        rw [← hn', hsize₁]
        congr 1
        omega

/-- A listing shows some code: one node for each instruction, in their order. -/
structure Mirrors (code : List (Instruction Offset)) (size : Offset) (l : Listing) : Prop where
  positionNodes : l.positionNodes = indexByOffset code
  initialSize : l.initialSize = size
  order : l.order = List.range code.length
  count : l.nodes.size = code.length
  node : ∀ (k : NodeId) (i : Instruction Offset), code[k]? = some i →
    ∃ n, l.nodes[k]? = some n ∧ Mirror l i n

theorem Mirrors.mono {code : List (Instruction Offset)} {size : Offset}
    (h : Mirrors code size l) (hl : Extends l l') (hnodes : l'.nodes = l.nodes) :
    Mirrors code size l' where
  positionNodes := hl.positionNodes.trans h.positionNodes
  initialSize := hl.initialSize.trans h.initialSize
  order := hl.order.trans h.order
  count := by rw [hnodes, h.count]
  node k i hi := by
    obtain ⟨n, hn, hmirror⟩ := h.node k i hi
    exact ⟨n, by rw [hnodes, hn], hmirror.mono hl⟩

/-- The targets in the code are instructions of it. -/
theorem Mirrors.targets {code : List (Instruction Offset)} {size : Offset}
    (h : Mirrors code size l) :
    ∀ i ∈ code, ∀ t ∈ i.operand.targets, ∃ k, (indexByOffset code)[t]? = some k := by
  intro i hi t ht
  obtain ⟨k, hk⟩ := List.mem_iff_getElem?.mp hi
  obtain ⟨n, -, hmirror⟩ := h.node k i hk
  rw [← h.positionNodes]
  exact hmirror.exists_node ht

/-- The listing of known instructions holds no others. -/
theorem Mirrors.known {code : List (Instruction Offset)} {size : Offset}
    (h : Mirrors code size l) (hcode : ∀ i ∈ code, i.Known) : l.Known := by
  intro n hn
  obtain ⟨k, hk⟩ := Array.mem_iff_getElem?.mp hn
  have hlt : k < code.length := by
    rw [← h.count]
    exact (Array.getElem?_eq_some_iff.mp hk).1
  obtain ⟨n', hn', hmirror⟩ := h.node k code[k] (List.getElem?_eq_getElem hlt)
  obtain rfl : n = n' := Option.some.inj (hk.symm.trans hn')
  exact hmirror.known (hcode _ (List.getElem_mem hlt))

/-- The listing of decoded code shows it. -/
theorem mirrors_ofInstructions {code : List (Instruction Offset)} {size : Offset}
    (h : ofInstructions code size = .ok l) : Mirrors code size l ∧ l.PositionsAgree := by
  obtain ⟨⟨⟨⟩, l'⟩, hrun, h⟩ := bind_eq_ok.mp h
  obtain rfl := pure_eq_ok.mp h
  obtain ⟨hext, hagree, hsize, -, hnew⟩ := forM_addInitial_extends (by
    intro offset label hlabel
    simp [empty] at hlabel) hrun
  refine ⟨⟨hext.positionNodes, hext.initialSize, hext.order, ?_, ?_⟩, hagree⟩
  · rw [hsize]
    exact Nat.zero_add _
  · intro k i hi
    obtain ⟨n, hn, hmirror⟩ := hnew k i hi
    exact ⟨n, by simpa [empty] using hn, hmirror⟩

end Listing

end CilProbe
