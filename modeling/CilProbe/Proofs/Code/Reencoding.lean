/-
CilProbe/Proofs/Code/Reencoding.lean

Code written anew.  `reencode` decodes code, makes a listing of it, lays that out and writes
it.  What a listing says does not depend on the forms of its branches, so all that a choice of
forms decides is where the instructions stand and how the branches are written
(`Listing.writtenIn`).  The code that a listing was made of is what one such choice makes of it,
the one of the branches that are long in it (`Mirrors.eq_map_writtenIn`); what is written anew
is what the least choice makes of it (`Mirrors.exists_rewritten`).

Both choices are valid, so the new code is no longer than the old one.  And both say the same
(`codeActs`), so the listing of the new code has the same valid choices as that of the old one, and
the least of them is the one it was written in: writing it anew again changes nothing.

Main result: `reencode_shortens`.
-/
import CilProbe.Proofs.Code.Completion

namespace CilProbe

/-! ### Acts and forms -/

namespace Layout

/-- A branch is written in the same way whichever of its forms is at hand. -/
theorem form_longForm (op : Opcode) (long : Bool) : form op.longForm long = form op long := by
  by_cases hb : op.isBranch = true
  · have hf := Opcode.forms_of_isBranch hb
    unfold form
    rw [Opcode.isBranch_longForm, if_pos hb, if_pos hb, Opcode.longForm_longForm,
      hf.shortForm_long]
  · rw [Opcode.longForm_of_not_isShortBranch fun hs => hb (Opcode.isBranch_of_isShortBranch hs)]

/-- The form in which a code stands. -/
theorem form_eq_self {op : Opcode} {long : Bool}
    (h : op.isBranch = true → (long = true ↔ ¬op.isShortBranch = true)) : form op long = op := by
  unfold form
  split
  · next hb =>
    have hf := Opcode.forms_of_isBranch hb
    split
    · next hlong => exact Opcode.longForm_of_not_isShortBranch ((h hb).mp hlong)
    · next hshort =>
      have hs : op.isShortBranch = true := by
        by_contra hs
        exact hshort ((h hb).mpr hs)
      exact (Opcode.forms_of_isShortBranch hs).shortForm_short
  · rfl

/-- The forms of a branch are two. -/
theorem eq_of_form_eq {op : Opcode} (hb : op.isBranch = true) {long long' : Bool}
    (h : form op long = form op long') : long = long' := by
  have hf := Opcode.forms_of_isBranch hb
  have hne : op.longForm ≠ op.shortForm := fun heq => by
    have hlong := hf.operand_long
    rw [heq, hf.operand_short] at hlong
    cases hlong
  unfold form at h
  rw [if_pos hb, if_pos hb] at h
  rcases long <;> rcases long'
  · rfl
  · exact (hne h.symm).elim
  · exact (hne h).elim
  · rfl

/-- Instructions that say the same take the same bytes. -/
theorem nodeSize_congr {i j : Instruction Label} {τ : Type} {f g : Label → τ}
    (h : i.act.map f = j.act.map g) (long : Bool) : nodeSize i long = nodeSize j long := by
  obtain ⟨hop, hoperand⟩ : i.opcode.longForm = j.opcode.longForm ∧
      i.operand.map f = j.operand.map g := Act.mk.inj h
  have hbranch : i.opcode.isBranch = j.opcode.isBranch := by
    rw [← Opcode.isBranch_longForm, hop, Opcode.isBranch_longForm]
  unfold nodeSize
  rw [hbranch]
  split
  · rfl
  · next hb =>
    rw [Opcode.longForm_of_not_isShortBranch fun hs => hb (Opcode.isBranch_of_isShortBranch hs)]
      at hop
    have hsame := Opcode.eq_of_longForm_eq hop hb
    rw [Instruction.size_eq_width, Instruction.size_eq_width, hsame, ← Operand.width_map f,
      hoperand, Operand.width_map]

end Layout

namespace Listing

open Layout

variable {l l' : Listing} {S S' : Finset NodeId} {id : NodeId}

/-! ### What a listing says -/

/-- The same code, with the same nodes and perhaps other labels for them. -/
structure ActsAlike (l l' : Listing) : Prop where
  order : l'.order = l.order
  act : ∀ id, l'.actOf id = l.actOf id

namespace ActsAlike

protected theorem symm (h : ActsAlike l l') : ActsAlike l' l :=
  ⟨h.order.symm, fun id => (h.act id).symm⟩

variable (h : ActsAlike l l')
include h

/-- A node has its like. -/
theorem exists_node {n : Node} (hn : l.nodes[id]? = some n) :
    ∃ n', l'.nodes[id]? = some n' ∧
      n'.instruction.act.map l'.binding = n.instruction.act.map l.binding := by
  have hact := h.act id
  rw [actOf_of_node hn, actOf, Option.map_eq_some_iff] at hact
  exact hact

theorem sizeIn (S : Finset NodeId) (id : NodeId) : l'.sizeIn S id = l.sizeIn S id := by
  rcases hn : l.nodes[id]? with - | n
  · have hact := h.act id
    rw [actOf, actOf, hn, Option.map_none, Option.map_eq_none_iff] at hact
    rw [Listing.sizeIn, Listing.sizeIn, hn, hact]
  · obtain ⟨n', hn', hact⟩ := h.exists_node hn
    rw [sizeIn_eq hn, sizeIn_eq hn', nodeSize_congr hact]

theorem extent (S : Finset NodeId) (ids : List NodeId) : l'.extent S ids = l.extent S ids := by
  induction ids with
  | nil => rfl
  | cons id ids ih => rw [extent_cons, extent_cons, ih, h.sizeIn]

theorem start (S : Finset NodeId) (id : NodeId) : l'.start S id = l.start S id := by
  rw [Listing.start, Listing.start, h.order, h.extent]

theorem positionIn? (S : Finset NodeId) (b : Binding) : l'.positionIn? S b = l.positionIn? S b := by
  rcases b with - | id | -
  · rfl
  · rw [Listing.positionIn?, Listing.positionIn?, h.order, h.start]
  · rw [Listing.positionIn?, Listing.positionIn?, h.order, h.extent]

theorem reachesIn (hreach : l.ReachesIn S id) : l'.ReachesIn S id := by
  obtain ⟨n, label, target, hn, hlabel, htarget, hreach⟩ := hreach
  obtain ⟨n', hn', hact⟩ := h.exists_node hn
  -- what a branch is like goes to what the branch goes to
  have hoperand : n'.instruction.operand.map l'.binding = .target (l.binding label) := by
    rw [show n'.instruction.operand.map l'.binding = n.instruction.operand.map l.binding from
      congrArg Act.operand hact, hlabel]
    rfl
  obtain ⟨label', hlabel', hbinding⟩ := Operand.exists_target_of_map_eq hoperand
  exact ⟨n', label', target, hn', hlabel', by rw [hbinding, h.positionIn?, htarget],
    by rwa [h.start]⟩

theorem branches : l'.branches = l.branches := by
  ext id
  have hbranch : l'.isBranch id = l.isBranch id := by
    rw [isBranch_eq, isBranch_eq, h.act]
  rw [mem_branches, mem_branches, h.order, hbranch]

theorem valid (hS : l.Valid S) : l'.Valid S where
  branches := h.branches ▸ hS.branches
  reaches id hid hshort := h.reachesIn (hS.reaches id (h.branches ▸ hid) hshort)

theorem setOf_valid : {S | l'.Valid S} = {S | l.Valid S} :=
  Set.ext fun _ => ⟨h.symm.valid, h.valid⟩

end ActsAlike

/-! ### What a choice of forms makes of a listing -/

/-- The instruction that a choice of long branches makes of a node; a node that does not exist
counts as one that does nothing. -/
def writtenIn (l : Listing) (S : Finset NodeId) (id : NodeId) : Instruction Offset :=
  let a := (l.actOf id).getD ⟨⟨0⟩, .none⟩
  ⟨.ofNat (l.start S id), form a.opcode (decide (id ∈ S)),
    a.operand.map fun b => .ofNat ((l.positionIn? S b).getD 0)⟩

theorem writtenIn_eq {n : Node} (hn : l.nodes[id]? = some n) (S : Finset NodeId) :
    l.writtenIn S id = ⟨.ofNat (l.start S id), form n.instruction.opcode (decide (id ∈ S)),
      n.instruction.operand.map fun label =>
        .ofNat ((l.positionIn? S (l.binding label)).getD 0)⟩ := by
  rw [writtenIn, actOf_of_node hn]
  show Instruction.mk _ (form n.instruction.opcode.longForm _)
    ((n.instruction.operand.map l.binding).map _) = _
  rw [form_longForm, Operand.map_map]
  rfl

theorem ActsAlike.writtenIn (h : ActsAlike l l') (S : Finset NodeId) (id : NodeId) :
    l'.writtenIn S id = l.writtenIn S id := by
  unfold Listing.writtenIn
  rw [h.act, h.start, show l'.positionIn? S = l.positionIn? S from funext (h.positionIn? S)]

/-- A layout makes of a node what its choice of forms does. -/
theorem written_eq {layout : Layout} (h : Placed l layout) (hid : id ∈ l.order) {n : Node}
    (hn : l.nodes[id]? = some n) : written l layout id = l.writtenIn layout.longNodes id := by
  have htarget : ∀ b, layout.target b = .ofNat ((l.positionIn? layout.longNodes b).getD 0) := by
    intro b
    rcases b with - | id | -
    · rfl
    · by_cases hid : id ∈ l.order
      · rw [target, positionOf?, h.offset id hid, positionIn?, if_pos hid]
      · rw [target, positionOf?, h.outside id hid, positionIn?, if_neg hid]
    · rw [target, positionOf?, h.codeSize, positionIn?]
  rw [writtenIn_eq hn, written, instructionOf_eq hn, h.offset id hid, decide_mem_longNodes]
  simp only [htarget, Option.getD_some]

/-- Choices that make the same of all branches are the same. -/
theorem eq_of_writtenIn_eq (hS : S ⊆ l.branches) (hS' : S' ⊆ l.branches)
    (h : ∀ id ∈ l.branches, l.writtenIn S id = l.writtenIn S' id) : S = S' := by
  have hmem : ∀ id ∈ l.branches, (id ∈ S ↔ id ∈ S') := by
    intro id hid
    have hbranch := (mem_branches.mp hid).2
    rcases hn : l.nodes[id]? with - | n
    · simp [isBranch, hn] at hbranch
    · have hform := h id hid
      rw [writtenIn_eq hn, writtenIn_eq hn] at hform
      have hsame := eq_of_form_eq ((isBranch_iff hn).mp hbranch)
        (congrArg Instruction.opcode hform)
      exact decide_eq_decide.mp hsame
  ext id
  exact ⟨fun hid => (hmem id (hS hid)).mp hid, fun hid => (hmem id (hS' hid)).mpr hid⟩

end Listing

/-! ### What code says -/

/-- What the instructions of some code say, with every target replaced by the number of the
instruction there. -/
def codeActs (code : List (Instruction Offset)) : List (Act (Option Nat)) :=
  code.map fun i => i.act.map fun t => (indexByOffset code)[t]?

theorem getElem?_codeActs (code : List (Instruction Offset)) (k : Nat) :
    (codeActs code)[k]? =
      (code[k]?).map fun i => i.act.map fun t => (indexByOffset code)[t]? := List.getElem?_map

/-- The numbers of the branches that stand in their long form. -/
def longBranches (code : List (Instruction Offset)) : Finset NodeId :=
  (Finset.range code.length).filter fun k =>
    (code[k]?).any fun i => i.opcode.isBranch && !i.opcode.isShortBranch

theorem mem_longBranches {code : List (Instruction Offset)} {k : NodeId} {i : Instruction Offset}
    (hi : code[k]? = some i) :
    k ∈ longBranches code ↔ i.opcode.isBranch = true ∧ ¬i.opcode.isShortBranch = true := by
  obtain ⟨hlt, rfl⟩ := List.getElem?_eq_some_iff.mp hi
  simp [longBranches, hlt]

/-- Code that says the same has its targets at the same instructions. -/
theorem targets_iff_of_codeActs_eq {code code' : List (Instruction Offset)}
    (h : codeActs code' = codeActs code) :
    (∀ i ∈ code', ∀ t ∈ i.operand.targets, ∃ k, (indexByOffset code')[t]? = some k) ↔
      ∀ i ∈ code, ∀ t ∈ i.operand.targets, ∃ k, (indexByOffset code)[t]? = some k := by
  have hnamed : ∀ code : List (Instruction Offset),
      (∀ i ∈ code, ∀ t ∈ i.operand.targets, ∃ k, (indexByOffset code)[t]? = some k) ↔
        ∀ a ∈ codeActs code, none ∉ a.operand.targets := fun code => by
    rw [codeActs, List.forall_mem_map]
    refine forall₂_congr fun i _ => ?_
    show _ ↔ none ∉ (i.operand.map fun t => (indexByOffset code)[t]?).targets
    rw [Operand.targets_map, List.mem_map, not_exists]
    exact forall_congr' fun t => by rw [not_and, ← Option.ne_none_iff_exists']
  rw [hnamed, hnamed, h]

/-- The node that a label stands for. -/
def Binding.node? : Binding → Option NodeId
  | .node id => some id
  | _ => none

namespace Listing

open Layout

/-- A branch has the form that the set of long branches says. -/
theorem Mirror.form_eq {l : Listing} {code : List (Instruction Offset)} {k : NodeId}
    {i : Instruction Offset} {n : Node} (h : Mirror l i n) (hi : code[k]? = some i) :
    form n.instruction.opcode (decide (k ∈ longBranches code)) = i.opcode := by
  rw [h.opcode, form_longForm]
  refine form_eq_self fun hb => ?_
  rw [decide_eq_true_iff, mem_longBranches hi, and_iff_right hb]

namespace Mirrors

variable {l : Listing} {code : List (Instruction Offset)} {size : Offset}
  (h : Mirrors code size l)
include h

/-- A node says what the instruction says. -/
theorem actOf_eq (k : NodeId) :
    l.actOf k = ((codeActs code)[k]?).map (Act.map fun o => .node (o.getD 0)) := by
  rw [getElem?_codeActs]
  rcases hi : code[k]? with - | i
  · have hnone : l.nodes[k]? = none := by
      rw [Array.getElem?_eq_none_iff, h.count]
      exact List.getElem?_eq_none_iff.mp hi
    rw [actOf, hnone]
    rfl
  · obtain ⟨n, hn, hmirror⟩ := h.node k i hi
    rw [actOf_of_node hn, hmirror.act, h.positionNodes, Option.map_some, Option.map_some,
      Act.map_map]
    rfl

/-- Code that says the same has listings that do. -/
theorem actsAlike {code' : List (Instruction Offset)} {size' : Offset} {l' : Listing}
    (h' : Mirrors code' size' l') (hacts : codeActs code' = codeActs code) : ActsAlike l l' where
  order := by
    have hlen := congrArg List.length hacts
    rw [codeActs, codeActs, List.length_map, List.length_map] at hlen
    rw [h.order, h'.order, hlen]
  act k := by rw [h.actOf_eq, h'.actOf_eq, hacts]

/-- A node begins behind those with lower numbers. -/
theorem start_eq {k : Nat} (hk : k < code.length) (S : Finset NodeId) :
    l.start S k = l.extent S (List.range k) := by
  obtain ⟨m, hm⟩ := Nat.exists_eq_add_of_lt hk
  have horder : l.order = List.range k ++ k :: (List.range m).map (k + 1 + ·) := by
    rw [h.order, show code.length = k + 1 + m by omega, List.range_add, List.range_succ,
      List.append_assoc]
    rfl
  refine start_append horder fun hmem => ?_
  · obtain ⟨j, -, (hj : k + 1 + j = k)⟩ := List.mem_map.mp hmem
    omega

variable (hcont : Contiguous 0 code)
include hcont

/-- The targets of an instruction are where the instructions stand whose nodes its own node goes
to. -/
theorem operand_eq {i : Instruction Offset} {n : Node} (hmirror : Mirror l i n)
    {f : Binding → Offset}
    (hf : ∀ (m : NodeId) (j : Instruction Offset), code[m]? = some j → f (.node m) = j.offset) :
    n.instruction.operand.map (fun label => f (l.binding label)) = i.operand := by
  have hoperand := congrArg (Operand.map fun b => f (b.getD .unbound)) hmirror.operand
  rw [Operand.map_map, Operand.map_map] at hoperand
  refine hoperand.trans (Operand.map_eq_self fun t ht => ?_)
  obtain ⟨m, hm⟩ := hmirror.exists_node ht
  obtain ⟨j, hj, rfl⟩ := (indexByOffset_eq_some hcont).mp (h.positionNodes ▸ hm)
  show f ((l.destination? j.offset).getD .unbound) = _
  rw [destination?, hm]
  exact hf m j hj

/-- A label of a node stands for the node of an instruction. -/
theorem exists_target {k : NodeId} {n : Node} (hn : l.nodes[k]? = some n) {label : Label}
    (hlabel : label ∈ n.instruction.operand.targets) :
    ∃ m i, code[m]? = some i ∧ l.binding label = .node m := by
  have hlt : k < code.length := h.count ▸ (Array.getElem?_eq_some_iff.mp hn).1
  obtain ⟨n', hn', hmirror⟩ := h.node k code[k] (List.getElem?_eq_getElem hlt)
  obtain rfl := Option.some.inj (hn.symm.trans hn')
  obtain ⟨t, -, ht⟩ := hmirror.exists_target hlabel
  obtain ⟨m, hm, hbinding⟩ := Option.map_eq_some_iff.mp ht
  obtain ⟨i, hi, -⟩ := (indexByOffset_eq_some hcont).mp (h.positionNodes ▸ hm)
  exact ⟨m, i, hi, hbinding.symm⟩

/-- What a choice of forms makes of a listing says what the code did. -/
theorem codeActs_map_writtenIn {S : Finset NodeId}
    (hwritten : Contiguous 0 (l.order.map (l.writtenIn S))) :
    codeActs (l.order.map (l.writtenIn S)) = codeActs code := by
  have hat : ∀ k < code.length,
      (l.order.map (l.writtenIn S))[k]? = some (l.writtenIn S k) := fun k hk => by
    rw [h.order, List.getElem?_map, List.getElem?_range hk]
    rfl
  refine List.ext_getElem? fun k => ?_
  rw [getElem?_codeActs, getElem?_codeActs]
  rcases hi : code[k]? with - | i
  · rw [List.getElem?_eq_none (by simpa [h.order] using List.getElem?_eq_none_iff.mp hi)]
    rfl
  obtain ⟨n, hn, hmirror⟩ := h.node k i hi
  rw [hat k (List.getElem?_eq_some_iff.mp hi).1, writtenIn_eq hn]
  refine congrArg some ?_
  show Act.mk (form n.instruction.opcode _).longForm ((n.instruction.operand.map _).map _) =
    Act.mk i.opcode.longForm (i.operand.map _)
  rw [longForm_form, hmirror.opcode, Opcode.longForm_longForm, Operand.map_map]
  refine congrArg (Act.mk _) ?_
  -- both name a target by the number of the node there
  have hoperand := congrArg (Operand.map fun b => b.bind Binding.node?) hmirror.operand
  rw [Operand.map_map, Operand.map_map] at hoperand
  refine Eq.trans (Operand.map_congr fun label hlabel => ?_)
    (hoperand.trans (Operand.map_congr fun t _ => ?_))
  · obtain ⟨m, j, hj, hm⟩ := h.exists_target hcont hn hlabel
    have hlt := (List.getElem?_eq_some_iff.mp hj).1
    show (indexByOffset (l.order.map (l.writtenIn S)))[
      (.ofNat ((l.positionIn? S (l.binding label)).getD 0) : Offset)]? = (l.binding label).node?
    rw [hm, positionIn?, if_pos (by rwa [h.order, List.mem_range])]
    exact (indexByOffset_eq_some hwritten).mpr ⟨_, hat m hlt, rfl⟩
  · show (l.destination? t).bind Binding.node? = (indexByOffset code)[t]?
    rw [destination?, h.positionNodes]
    cases (indexByOffset code)[t]? <;> rfl

/-! ### The choice made by the code -/

variable (hcode : ∀ i ∈ code, i.Encodable)
include hcode

/-- With these branches long, a node takes the bytes of its instruction. -/
theorem sizeIn_longBranches {k : NodeId} {i : Instruction Offset} (hi : code[k]? = some i) :
    l.sizeIn (longBranches code) k = i.size := by
  obtain ⟨n, hn, hmirror⟩ := h.node k i hi
  let home : Binding → Offset := fun b => (b.node?.bind (code[·]?)).elim 0 Instruction.offset
  have hoperand := h.operand_eq hcont hmirror (f := home) fun m j hj => by
    show (code[m]?).elim 0 Instruction.offset = _
    rw [hj]
    rfl
  rw [sizeIn_eq hn, ← size_form (hmirror.known (hcode i (List.mem_of_getElem? hi)).known) i.offset _
    fun label => home (l.binding label), hmirror.form_eq hi, hoperand]

/-- With these branches long, a node begins where its instruction stood. -/
theorem extent_longBranches {k : NodeId} (hk : k ≤ code.length) :
    l.extent (longBranches code) (List.range k) = codeEnd 0 (code.take k) := by
  induction k with
  | zero => rfl
  | succ k ih =>
    have hi := List.getElem?_eq_getElem (Nat.lt_of_succ_le hk)
    rw [List.range_succ, extent_append, ih (Nat.le_of_succ_le hk), List.take_add_one, hi,
      codeEnd_append, extent_cons, h.sizeIn_longBranches hcont hcode hi]
    rfl

theorem start_longBranches {k : NodeId} {i : Instruction Offset} (hi : code[k]? = some i) :
    l.start (longBranches code) k = i.offset.toNat := by
  obtain ⟨hk, rfl⟩ := List.getElem?_eq_some_iff.mp hi
  rw [h.start_eq hk, h.extent_longBranches hcont hcode (Nat.le_of_lt hk)]
  rw [← List.take_append_drop k code] at hcont
  obtain ⟨-, hrest⟩ := contiguous_append.mp hcont
  rw [List.drop_eq_getElem_cons hk] at hrest
  exact hrest.1.symm

theorem positionIn?_longBranches {k : NodeId} {i : Instruction Offset} (hi : code[k]? = some i) :
    l.positionIn? (longBranches code) (.node k) = some i.offset.toNat := by
  have hk : k ∈ l.order := by
    rw [h.order, List.mem_range]
    exact (List.getElem?_eq_some_iff.mp hi).1
  rw [positionIn?, if_pos hk, h.start_longBranches hcont hcode hi]

/-- An instruction is what the long branches of the code make of its node. -/
theorem writtenIn_longBranches {k : NodeId} {i : Instruction Offset} (hi : code[k]? = some i) :
    l.writtenIn (longBranches code) k = i := by
  obtain ⟨n, hn, hmirror⟩ := h.node k i hi
  have hoperand := h.operand_eq hcont hmirror
    (f := fun b => .ofNat ((l.positionIn? (longBranches code) b).getD 0)) fun m j hj => by
      rw [h.positionIn?_longBranches hcont hcode hj, Option.getD_some, UInt32.ofNat_toNat]
  rw [writtenIn_eq hn, hmirror.form_eq hi, hoperand, h.start_longBranches hcont hcode hi,
    UInt32.ofNat_toNat]

/-- So the code is what its long branches make of its listing. -/
theorem eq_map_writtenIn : l.order.map (l.writtenIn (longBranches code)) = code := by
  refine List.ext_getElem (by simp [h.order]) fun k _ hk => ?_
  simp only [h.order, List.getElem_map, List.getElem_range]
  exact h.writtenIn_longBranches hcont hcode (List.getElem?_eq_getElem hk)

theorem extent_order_longBranches :
    l.extent (longBranches code) l.order = codeEnd 0 code := by
  rw [h.order, h.extent_longBranches hcont hcode (Nat.le_refl _), List.take_length]

/-- They are a valid choice, as the others are short and were written with their targets in
reach. -/
theorem valid_longBranches : l.Valid (longBranches code) where
  branches k hk := by
    have hlt : k < code.length := List.mem_range.mp (Finset.mem_filter.mp hk).1
    have hi := List.getElem?_eq_getElem hlt
    obtain ⟨n, hn, hmirror⟩ := h.node k code[k] hi
    rw [mem_branches, h.order, List.mem_range, isBranch_iff hn, hmirror.opcode,
      Opcode.isBranch_longForm]
    exact ⟨hlt, ((mem_longBranches hi).mp hk).1⟩
  reaches k hid hshort := by
    obtain ⟨hmem, hbranch⟩ := mem_branches.mp hid
    rw [h.order, List.mem_range] at hmem
    have hi := List.getElem?_eq_getElem hmem
    obtain ⟨n, hn, hmirror⟩ := h.node k code[k] hi
    rw [isBranch_iff hn, hmirror.opcode, Opcode.isBranch_longForm] at hbranch
    have hs : code[k].opcode.isShortBranch = true := by
      by_contra hs
      exact hshort ((mem_longBranches hi).mpr ⟨hbranch, hs⟩)
    have henc := hcode _ (List.getElem_mem hmem)
    have hknown := hmirror.known henc.known
    obtain ⟨label, hlabel⟩ := Operand.exists_target_of_hasKind hknown.2
      ((Opcode.isBranch_iff hknown.1).mp ((isBranch_iff hn).mp (mem_branches.mp hid).2))
    have hmem : label ∈ n.instruction.operand.targets := by
      rw [hlabel, Operand.targets]
      exact List.mem_singleton_self label
    obtain ⟨m, j, hj, hm⟩ := h.exists_target hcont hn hmem
    have htarget : l.positionIn? (longBranches code) (l.binding label) = some j.offset.toNat := by
      rw [hm, h.positionIn?_longBranches hcont hcode hj]
    have hoperand := congrArg Instruction.operand (h.writtenIn_longBranches hcont hcode hi)
    rw [writtenIn_eq hn, hlabel] at hoperand
    simp only [Operand.map, htarget, Option.getD_some, UInt32.ofNat_toNat] at hoperand
    have hreach := henc.2
    rw [(Opcode.isShortBranch_iff henc.1).mp hs, ← hoperand] at hreach
    -- a short branch takes two bytes
    have hsize := h.sizeIn_longBranches hcont hcode hi
    rw [sizeIn_short (mem_branches.mp hid).2 hshort] at hsize
    refine ⟨n, label, _, hn, hlabel, htarget, ?_⟩
    rw [h.start_longBranches hcont hcode hi]
    rwa [Operand.Encodable, Operand.displacement, Instruction.stop, ← hsize] at hreach

omit hcode

/-- What the code can be written as is what the least choice makes of its listing. -/
theorem exists_rewritten (hknown : ∀ i ∈ code, i.Known) {S : Finset NodeId} (hS : l.Valid S)
    (hfit : l.extent S l.order ≤ 0x7FFFFFFF) :
    ∃ L layout code', IsLeast {S | l.Valid S} L ∧ code' = l.order.map (l.writtenIn L) ∧
      (∀ limit, l.branches.card < limit → Layout.of l limit = .ok layout) ∧
      assemble l layout = .ok (codeBytes code') ∧ decode (codeBytes code') = .ok code' ∧
      (codeBytes code').length = l.extent L l.order := by
  have hw := h.writable hcont hknown
  obtain ⟨layout, bytes, hlayout, hbytes⟩ :=
    exists_written hw (fun _ hid => h.exists_node hid) hS hfit
  have hfound := hlayout _ (Nat.lt_succ_self _)
  obtain ⟨hleast, hplaced⟩ := least_of_settle (needed_none l) hfound
  have hcode : l.order.map (written l layout) = l.order.map (l.writtenIn layout.longNodes) :=
    List.map_congr_left fun id hid => by
      obtain ⟨n, hn⟩ := h.exists_node hid
      exact written_eq hplaced hid hn
  have hdecode := decode_assemble hw.nodup hw.known hfound hbytes
  obtain ⟨rfl, -, -⟩ := assembled hw.nodup hw.known hfound hbytes
  refine ⟨layout.longNodes, layout, l.order.map (written l layout), hleast, hcode, hlayout,
    hbytes, hdecode, ?_⟩
  rw [← codeEnd_of_decode hdecode, ← Layout.codeSize_eq hw.known (stands_of hw.nodup hfound).1,
    hplaced.codeSize]

end Mirrors

end Listing

/-! ### Writing code anew -/

/-- Decode code and write it again, in a layout found in at most `limit` passes. -/
def reencode (limit : Nat) (bytes : List UInt8) : Except Error (List UInt8) := do
  let code ← decode bytes
  let l ← Listing.ofInstructions code (.ofNat bytes.length)
  let layout ← Layout.of l limit
  assemble l layout

theorem reencode_eq_ok {limit : Nat} {bytes bytes' : List UInt8} {code : List (Instruction Offset)}
    {l : Listing} {layout : Layout} (hdecode : decode bytes = .ok code)
    (hl : Listing.ofInstructions code (.ofNat bytes.length) = .ok l)
    (hlayout : Layout.of l limit = .ok layout) (hbytes : assemble l layout = .ok bytes') :
    reencode limit bytes = .ok bytes' :=
  bind_eq_ok.mpr ⟨code, hdecode, bind_eq_ok.mpr ⟨l, hl, bind_eq_ok.mpr ⟨layout, hlayout, hbytes⟩⟩⟩

/-- A least set is one that nothing can be taken from, where all sets around are around the
least one. -/
theorem isLeast_iff_of_isLeast {α : Type} [DecidableEq α] {P : Finset α → Prop} {L S : Finset α}
    (hL : IsLeast {S | P S} L) (hS : P S) :
    IsLeast {S | P S} S ↔ ∀ T ⊆ S, T.Nonempty → ¬P (S \ T) := by
  constructor
  · rintro hleast T hT ⟨id, hid⟩ hsmaller
    exact (Finset.mem_sdiff.mp (hleast.2 hsmaller (hT hid))).2 hid
  · intro hall
    have hsub : L ⊆ S := hL.2 hS
    have hnone : ¬(S \ L).Nonempty := fun hne =>
      hall (S \ L) Finset.sdiff_subset hne (by rw [Finset.sdiff_sdiff_eq_self hsub]; exact hL.1)
    rw [Finset.not_nonempty_iff_eq_empty, Finset.sdiff_eq_empty_iff_subset] at hnone
    rwa [Finset.Subset.antisymm hnone hsub]

/-- What the least choice makes of a listing stays when it is written anew: the listing made of
it says the same and so has the same least choice. -/
theorem reencode_of_isLeast {code : List (Instruction Offset)} {size : Offset} {l : Listing}
    (hm : Listing.Mirrors code size l) (hcont : Contiguous 0 code)
    (hl : ∃ l, Listing.ofInstructions code size = .ok l) {L : Finset NodeId}
    (hleast : IsLeast {S | l.Valid S} L) {c : List UInt8}
    (hdecode : decode c = .ok (l.order.map (l.writtenIn L))) (hsize : c.length ≤ 0x7FFFFFFF)
    (hlength : c.length = l.extent L l.order) {limit : Nat} (hlimit : l.branches.card < limit) :
    reencode limit c = .ok c := by
  obtain ⟨hbytes, hcode', hcont'⟩ := decode_eq_ok_iff.mp hdecode
  have hacts := hm.codeActs_map_writtenIn hcont hcont'
  obtain ⟨l', hl'⟩ := Listing.exists_ofInstructions_iff.mpr
    ((targets_iff_of_codeActs_eq hacts).mpr (Listing.exists_ofInstructions_iff.mp hl))
  obtain ⟨hm', -⟩ := Listing.mirrors_ofInstructions hl'
  have halike := hm.actsAlike hm' hacts
  obtain ⟨L', layout, code', hleast', rfl, hlayout, hc, -, -⟩ :=
    hm'.exists_rewritten hcont' (fun i hi => (hcode' i hi).known) (halike.valid hleast.1)
      (by rw [halike.extent, halike.order, ← hlength]; exact hsize)
  rw [halike.setOf_valid] at hleast'
  obtain rfl := hleast.unique hleast'
  rw [halike.order, show l'.writtenIn L = l.writtenIn L from funext (halike.writtenIn L),
    ← hbytes] at hc
  exact reencode_eq_ok hdecode hl' (hlayout limit (halike.branches ▸ hlimit)) hc

/-- Writing code anew makes it no longer, and writing it anew again changes nothing.  Code can be
made a listing exactly if all its targets are instructions.  With more passes than branches it is
then written; what is written says the same, with each target at the same instruction; and it is
the code there was exactly if no long branches of it could have been short together, which is to
say that they are the least valid choice. -/
theorem reencode_shortens {c : List UInt8} {code : List (Instruction Offset)}
    (hdecode : decode c = .ok code) (hsize : c.length ≤ 0x7FFFFFFF) :
    ((∃ l, Listing.ofInstructions code (.ofNat c.length) = .ok l) ↔
      ∀ i ∈ code, ∀ t ∈ i.operand.targets, ∃ j ∈ code, j.offset = t) ∧
    ∀ l, Listing.ofInstructions code (.ofNat c.length) = .ok l →
      ∃ c' code', (∀ limit, (code.countP fun i => i.opcode.isBranch) < limit →
          reencode limit c = .ok c' ∧ reencode limit c' = .ok c') ∧
        c'.length ≤ c.length ∧ decode c' = .ok code' ∧ codeActs code' = codeActs code ∧
        (c' = c ↔ ∀ T ⊆ longBranches code, T.Nonempty → ¬l.Valid (longBranches code \ T)) ∧
        (c' = c ↔ IsLeast {S | l.Valid S} (longBranches code)) := by
  obtain ⟨hbytes, hcode, hcont⟩ := decode_eq_ok_iff.mp hdecode
  have hknown : ∀ i ∈ code, i.Known := fun i hi => (hcode i hi).known
  refine ⟨?_, fun l hl => ?_⟩
  · simp only [Listing.exists_ofInstructions_iff, exists_indexByOffset_iff hcont]
  obtain ⟨hm, -⟩ := Listing.mirrors_ofInstructions hl
  have hvalid := hm.valid_longBranches hcont hcode
  have hextent : l.extent (longBranches code) l.order = c.length := by
    rw [hm.extent_order_longBranches hcont hcode, codeEnd_of_decode hdecode]
  obtain ⟨L, layout, code', hleast, hcode', hlayout, hc', hdecode', hlength⟩ :=
    hm.exists_rewritten hcont hknown hvalid (hextent ▸ hsize)
  have hle : (codeBytes code').length ≤ c.length := by
    rw [hlength, ← hextent]
    exact l.extent_mono (hleast.2 hvalid) l.order
  obtain ⟨-, henc', hcont'⟩ := decode_eq_ok_iff.mp hdecode'
  have hacts : codeActs code' = codeActs code := by
    rw [hcode'] at hcont' ⊢
    exact hm.codeActs_map_writtenIn hcont hcont'
  have hsame : codeBytes code' = c ↔ L = longBranches code := by
    constructor
    · intro heq
      rw [heq, hdecode] at hdecode'
      refine Listing.eq_of_writtenIn_eq hleast.1.branches hvalid.branches fun id hid => ?_
      have hmap := (hm.eq_map_writtenIn hcont hcode).trans (Except.ok.inj hdecode')
      rw [hcode'] at hmap
      exact (List.map_inj_left.mp hmap id (Listing.mem_branches.mp hid).1).symm
    · rintro rfl
      rw [hcode', hm.eq_map_writtenIn hcont hcode, ← hbytes]
  have hiff : codeBytes code' = c ↔ IsLeast {S | l.Valid S} (longBranches code) := by
    rw [hsame]
    exact ⟨fun heq => heq ▸ hleast, fun hleast' => hleast.unique hleast'⟩
  refine ⟨codeBytes code', code', fun limit hlimit => ?_, hle, hdecode', hacts, ?_, hiff⟩
  · have hlimit := Nat.lt_of_le_of_lt hm.card_branches_le hlimit
    refine ⟨reencode_eq_ok hdecode hl (hlayout limit hlimit) hc', ?_⟩
    exact reencode_of_isLeast hm hcont ⟨l, hl⟩ hleast (hcode' ▸ hdecode')
      (Nat.le_trans hle hsize) hlength hlimit
  · rw [hiff]
    exact isLeast_iff_of_isLeast hleast hvalid

/-- A jump in its long form over a return to another one. -/
def longJump : List UInt8 := [0x38, 1, 0, 0, 0, 0x2A, 0x2A]

/-- Its instructions. -/
def longJumpCode : List (Instruction Offset) :=
  [⟨0, ⟨0x38⟩, .target 6⟩, ⟨5, ⟨0x2A⟩, .none⟩, ⟨6, ⟨0x2A⟩, .none⟩]

/-- The listing made of them. -/
def longJumpListing : Listing where
  nodes := #[⟨⟨0, ⟨0x38⟩, .target 0⟩, some 0⟩, ⟨⟨5, ⟨0x2A⟩, .none⟩, some 5⟩,
    ⟨⟨6, ⟨0x2A⟩, .none⟩, some 6⟩]
  order := [0, 1, 2]
  bindings := #[.node 2]
  positionLabels := (∅ : Std.HashMap Offset Label).insert 6 0
  positionNodes := indexByOffset longJumpCode
  initialSize := 7

theorem ofInstructions_longJumpCode :
    Listing.ofInstructions longJumpCode 7 = .ok longJumpListing := by
  have hindex : (indexByOffset longJumpCode)[(6 : Offset)]? = some 2 := by
    simp [indexByOffset, longJumpCode]
  -- the jump is the one instruction with a target, and finds no label there yet
  have htarget : ∀ nodes order bindings size,
      (Listing.targetLabel 0 6).run ⟨nodes, order, bindings, ∅, indexByOffset longJumpCode, size⟩ =
        .ok (bindings.size, ⟨nodes, order, bindings.push (.node 2),
          (∅ : Std.HashMap Offset Label).insert 6 bindings.size, indexByOffset longJumpCode,
            size⟩) :=
    fun nodes order bindings size => by
      refine run_bind_eq_ok.mpr ⟨_, _, rfl, ?_⟩
      simp only [hindex, Listing.labelAt, StateT.run, Listing.bindingAt?,
        Std.HashMap.getElem?_empty, Listing.addLabel]
  refine bind_eq_ok.mpr ⟨((), longJumpListing), run_bind_eq_ok.mpr ⟨(), { longJumpListing with
    nodes := #[⟨⟨0, ⟨0x38⟩, .target 0⟩, some 0⟩] }, ?_, rfl⟩, rfl⟩
  exact run_bind_eq_ok.mpr
    ⟨.target 0, _, run_bind_eq_ok.mpr ⟨0, _, htarget _ _ _ _, rfl⟩, rfl⟩

/-- The jump gets its short form, and keeps it. -/
theorem reencode_shortens_longJump :
    decode longJump = .ok longJumpCode ∧ longJump.length ≤ 0x7FFFFFFF ∧
      (∀ limit, 1 < limit → reencode limit longJump = .ok [0x2B, 1, 0x2A, 0x2A] ∧
        reencode limit [0x2B, 1, 0x2A, 0x2A] = .ok [0x2B, 1, 0x2A, 0x2A]) ∧
      ¬IsLeast {S | longJumpListing.Valid S} (longBranches longJumpCode) := by
  have hdecode : decode longJump = .ok longJumpCode := by decide +kernel
  have hlayout : Layout.of longJumpListing 2 =
      .ok ⟨#[some 0, some 2, some 3], #[false, false, false], 4, 1⟩ := by decide +kernel
  have hwritten : reencode 2 longJump = .ok [0x2B, 1, 0x2A, 0x2A] :=
    reencode_eq_ok hdecode ofInstructions_longJumpCode hlayout (by decide +kernel)
  obtain ⟨-, hall⟩ := reencode_shortens hdecode (by decide)
  obtain ⟨c', code', hlimits, -, -, -, -, hiff⟩ := hall _ ofInstructions_longJumpCode
  have hcount : (longJumpCode.countP fun i => i.opcode.isBranch) = 1 := by decide
  rw [hcount] at hlimits
  obtain rfl : c' = [0x2B, 1, 0x2A, 0x2A] :=
    Except.ok.inj ((hlimits 2 (by decide)).1.symm.trans hwritten)
  exact ⟨hdecode, by decide, hlimits, fun hleast => nomatch hiff.mpr hleast⟩

end CilProbe
