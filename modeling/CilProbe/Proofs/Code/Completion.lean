/-
CilProbe/Proofs/Code/Completion.lean

Code that gets through.  Decoded code is made a listing exactly if all its targets are
instructions (`exists_ofInstructions_iff`), and every label in that listing stands for a node,
so that it can be written (`Mirrors.writable`).

A listing that can be written, and takes no more than 31 bits of positions in some valid
choice of forms, has a layout, and nothing keeps it from being written in it: the way from one
position of the code to another is never longer than the code, so every displacement fits
(`exists_assemble`, `exists_written`).
-/
import Mathlib.Algebra.Ring.Nat
import CilProbe.Proofs.Code.Settling

namespace CilProbe

/-! ### Room for an act -/

/-- Bytes that are enough for an act in any form. -/
def Act.room {τ : Type} (a : Act τ) : Nat :=
  if a.opcode.isBranch then 5 else a.opcode.size + a.operand.width a.opcode.info.operand

theorem Instruction.room_act {τ : Type} {i : Instruction τ} (h : ¬i.opcode.isBranch = true) :
    i.act.room = i.size := by
  have hlong : i.opcode.longForm = i.opcode :=
    Opcode.longForm_of_not_isShortBranch fun hs => h (Opcode.isBranch_of_isShortBranch hs)
  rw [Act.room, Instruction.act]
  simp only [hlong]
  rw [if_neg h, Instruction.size_eq_width]

theorem Act.room_map {τ σ : Type} (f : τ → σ) (a : Act τ) : (a.map f).room = a.room := by
  rw [room, room, map, Operand.width_map]

theorem Layout.nodeSize_le_room {τ : Type} (i : Instruction Label) (f : Label → τ) (long : Bool) :
    nodeSize i long ≤ (i.act.map f).room := by
  rw [Act.room_map]
  by_cases hb : i.opcode.isBranch = true
  · rw [nodeSize, if_pos hb, Act.room, Instruction.act, Opcode.isBranch_longForm, if_pos hb]
    split <;> decide
  · rw [nodeSize, if_neg hb, Instruction.room_act hb]

namespace Listing

variable {l : Listing} {S : Finset NodeId} {id : NodeId}

/-! ### Listings of decoded code -/

section Making

variable {code : List (Instruction Offset)} {size : Offset}

/-- A position that is something can be given a label. -/
theorem exists_labelAt {offset : Offset} {b : Binding} (h : l.bindingAt? offset = some b) :
    ∃ label l', (labelAt offset).run l = .ok (label, l') := by
  simp only [labelAt, StateT.run]
  rcases l.positionLabels[offset]? with - | label
  · rw [h]
    exact ⟨_, _, rfl⟩
  · exact ⟨label, l, rfl⟩

theorem exists_targetLabel (source : Offset) {target : Offset}
    (h : l.positionNodes[target]? = some id) :
    ∃ label l', (targetLabel source target).run l = .ok (label, l') := by
  have hat : l.bindingAt? target = some (.node id) := by rw [bindingAt?, h]
  obtain ⟨label, l', hlabel⟩ := exists_labelAt hat
  refine ⟨label, l', run_bind_eq_ok.mpr ⟨l, l, rfl, ?_⟩⟩
  rw [h]
  exact hlabel

/-- An instruction all of whose targets are instructions can be added. -/
theorem exists_addInitial {i : Instruction Offset} (hl : l.PositionsAgree)
    (htargets : ∀ t ∈ i.operand.targets, ∃ k, l.positionNodes[t]? = some k) :
    ∃ l', (addInitial i).run l = .ok ((), l') := by
  obtain ⟨operand, l', hoperand, -⟩ := Operand.exists_run_mapTargetsM
    (fun s => s.PositionsAgree ∧ s.positionNodes = l.positionNodes)
    (f := targetLabel i.offset) (fun t ht s ⟨hs, hnodes⟩ => by
      obtain ⟨k, hk⟩ := htargets t ht
      obtain ⟨label, s', hlabel⟩ := exists_targetLabel i.offset (hnodes ▸ hk)
      obtain ⟨hext, hs', -⟩ := targetLabel_extends hs hlabel
      exact ⟨label, s', hlabel, hs', hext.positionNodes.trans hnodes⟩) ⟨hl, rfl⟩
  exact ⟨_, run_bind_eq_ok.mpr ⟨operand, l', hoperand, rfl⟩⟩

/-- Code is made a listing exactly if its targets are instructions. -/
theorem exists_ofInstructions_iff :
    (∃ l, ofInstructions code size = .ok l) ↔
      ∀ i ∈ code, ∀ t ∈ i.operand.targets, ∃ k, (indexByOffset code)[t]? = some k := by
  constructor
  · rintro ⟨l, h⟩ i hi t ht
    exact (mirrors_ofInstructions h).1.targets i hi t ht
  · intro htargets
    obtain ⟨l, h, -⟩ := exists_run_forM
      (fun s => s.PositionsAgree ∧ s.positionNodes = indexByOffset code)
      (f := addInitial) (fun i hi s ⟨hs, hnodes⟩ => by
        obtain ⟨s', h⟩ := exists_addInitial hs (fun t ht => hnodes ▸ htargets i hi t ht)
        obtain ⟨hext, hs', -⟩ := addInitial_extends hs h
        exact ⟨s', h, hs', hext.positionNodes.trans hnodes⟩)
      (s := { empty with
        order := List.range code.length, positionNodes := indexByOffset code, initialSize := size })
      ⟨fun offset label hlabel => by simp [empty] at hlabel, rfl⟩
    exact ⟨l, bind_eq_ok.mpr ⟨((), l), h, rfl⟩⟩

end Making

/-! ### Listings by what they say -/

section Saying

variable {ids : List NodeId} {acts : List (Act Binding)}

/-- Of what is said in a list, each part is said by a node. -/
theorem exists_of_map_actOf (hacts : ids.map l.actOf = acts.map some) (hid : id ∈ ids) :
    ∃ n, l.nodes[id]? = some n ∧ n.instruction.act.map l.binding ∈ acts := by
  have hmem := List.mem_map_of_mem (f := l.actOf) hid
  rw [hacts] at hmem
  obtain ⟨a, ha, hid⟩ := List.mem_map.mp hmem
  obtain ⟨n, hn, rfl⟩ := Option.map_eq_some_iff.mp hid.symm
  exact ⟨n, hn, ha⟩

theorem isBranch_eq (l : Listing) (id : NodeId) :
    l.isBranch id = (l.actOf id).any fun a => a.opcode.isBranch := by
  rw [isBranch, actOf, Option.any_map]
  exact congrArg (Option.any · _) (funext fun n =>
    (Opcode.isBranch_longForm n.instruction.opcode).symm)

/-- There are no more branches than are said. -/
theorem card_branches_le (hacts : l.order.map l.actOf = acts.map some) :
    l.branches.card ≤ acts.countP fun a => a.opcode.isBranch := by
  have hcount : l.order.countP l.isBranch = acts.countP fun a => a.opcode.isBranch := by
    have hsaid := congrArg (List.countP (Option.any fun a => a.opcode.isBranch)) hacts
    rw [List.countP_map, List.countP_map] at hsaid
    rw [show l.isBranch = Option.any _ ∘ l.actOf from funext l.isBranch_eq]
    exact hsaid
  rw [branches, ← hcount, List.countP_eq_length_filter]
  exact List.toFinset_card_le _

/-- The nodes take no more bytes than there is to be room for. -/
theorem extent_le_of_acts (hacts : ids.map l.actOf = acts.map some) (S : Finset NodeId) :
    l.extent S ids ≤ (acts.map Act.room).sum := by
  induction ids generalizing acts with
  | nil => exact Nat.zero_le _
  | cons id ids ih =>
    rcases acts with - | ⟨a, acts⟩
    · cases hacts
    obtain ⟨hid, hids⟩ := List.cons.inj hacts
    obtain ⟨n, hn, rfl⟩ := Option.map_eq_some_iff.mp hid
    rw [extent_cons, List.map_cons, List.sum_cons, sizeIn_eq hn]
    exact Nat.add_le_add (Layout.nodeSize_le_room _ l.binding _) (ih hids)

/-- What goes nowhere but to nodes of the code and to its end can be written. -/
theorem writable_of_acts (hnodup : l.order.Nodup) (hknown : l.KnownIn l.order)
    (hacts : l.order.map l.actOf = acts.map some)
    (htargets : ∀ a ∈ acts, ∀ b ∈ a.operand.targets,
      b = .atEnd ∨ ∃ id ∈ l.order, b = .node id) : l.Writable where
  nodup := hnodup
  known := hknown
  bound id hid n hn label hlabel := by
    obtain ⟨n', hn', ha⟩ := exists_of_map_actOf hacts hid
    obtain rfl := Option.some.inj (hn.symm.trans hn')
    refine htargets _ ha _ ?_
    show l.binding label ∈ (n.instruction.operand.map l.binding).targets
    rw [Operand.targets_map]
    exact List.mem_map_of_mem hlabel

end Saying

/-- What can be written resolves, if its nodes exist. -/
theorem Writable.resolves (hl : l.Writable) (hnodes : ∀ id ∈ l.order, ∃ n, l.nodes[id]? = some n) :
    l.Resolves where
  exists_node := hnodes
  exists_label id hid n hn hbranch := by
    have hknown := hl.known id hid n hn
    obtain ⟨label, hlabel⟩ :=
      Operand.exists_target_of_hasKind hknown.2 ((Opcode.isBranch_iff hknown.1).mp hbranch)
    exact ⟨label, hlabel, hl.bound id hid n hn label (by simp [hlabel, Operand.targets])⟩

namespace Mirrors

variable {code : List (Instruction Offset)} {size : Offset} (h : Mirrors code size l)
include h

/-- The listing of code says what the code says. -/
theorem map_actOf : l.order.map l.actOf =
    (code.map fun i => i.act.map fun t => .node (((indexByOffset code)[t]?).getD 0)).map some := by
  refine List.ext_getElem (by simp [h.order]) fun k hk _ => ?_
  rw [List.length_map, h.order, List.length_range] at hk
  obtain ⟨n, hn, hmirror⟩ := h.node k code[k] (List.getElem?_eq_getElem hk)
  simp only [h.order, List.getElem_map, List.getElem_range]
  rw [actOf_of_node hn, hmirror.act, h.positionNodes]

theorem exists_node (hid : id ∈ l.order) : ∃ n, l.nodes[id]? = some n := by
  obtain ⟨n, hn, -⟩ := exists_of_map_actOf h.map_actOf hid
  exact ⟨n, hn⟩

theorem writable {start : Nat} (hcont : Contiguous start code) (hknown : ∀ i ∈ code, i.Known) :
    l.Writable := by
  refine writable_of_acts (h.order ▸ List.nodup_range) ((h.known hknown).knownIn l.order)
    h.map_actOf ?_
  rw [List.forall_mem_map]
  intro i hi b hb
  rw [Act.map, Operand.targets_map] at hb
  obtain ⟨t, ht, rfl⟩ := List.mem_map.mp hb
  obtain ⟨k, hk⟩ := h.targets i hi t ht
  obtain ⟨j, hj, -⟩ := (indexByOffset_eq_some hcont).mp hk
  refine .inr ⟨k, ?_, by rw [hk]; rfl⟩
  rw [h.order, List.mem_range]
  exact (List.getElem?_eq_some_iff.mp hj).1

theorem card_branches_le : l.branches.card ≤ code.countP fun i => i.opcode.isBranch := by
  refine Nat.le_trans (Listing.card_branches_le h.map_actOf) (Nat.le_of_eq ?_)
  rw [List.countP_map]
  exact congrArg (List.countP · code) (funext fun i => Opcode.isBranch_longForm i.opcode)

end Mirrors

/-! ### Positions in the code -/

/-- No label stands for a position behind the code. -/
theorem positionIn?_le {b : Binding} {target : Nat} (h : l.positionIn? S b = some target) :
    target ≤ l.extent S l.order := by
  rcases b with - | id | -
  · cases h
  · by_cases hid : id ∈ l.order
    · rw [positionIn?, if_pos hid] at h
      obtain rfl := Option.some.inj h
      obtain ⟨rest, hrest, hl⟩ := exists_rest hid
      rw [start_append hl hrest]
      conv_rhs => rw [hl, extent_append]
      exact Nat.le_add_right _ _
    · rw [positionIn?, if_neg hid] at h
      cases h
  · exact Nat.le_of_eq (Option.some.inj h).symm

/-- Every node ends within the code. -/
theorem start_add_sizeIn_le (hid : id ∈ l.order) :
    l.start S id + l.sizeIn S id ≤ l.extent S l.order := by
  obtain ⟨rest, hrest, hl⟩ := exists_rest hid
  rw [start_append hl hrest]
  conv_rhs => rw [hl, extent_append, extent_cons]
  omega

end Listing

/-- The choice of a layout, node by node. -/
theorem Layout.decide_mem_longNodes (layout : Layout) (id : NodeId) :
    decide (id ∈ layout.longNodes) = layout.isLong id := decide_mem_longOf layout.long id

/-! ### Writing -/

section Writing

open Layout

variable {l : Listing} {layout : Layout} {limit : Nat}

/-- In code of up to 31 bits of positions every displacement fits. -/
theorem exists_assemble (hl : l.Writable) (hlayout : Layout.of l limit = .ok layout)
    (hsize : layout.codeSize ≤ 0x7FFFFFFF) : ∃ bytes, assemble l layout = .ok bytes := by
  rcases h : assemble l layout with e | bytes
  · obtain ⟨id, hid, d, ⟨n, label, start, target, hn, -, hstart, htarget, rfl⟩, hreach, -⟩ :=
      assemble_eq_error hl hlayout h
    obtain ⟨-, hplaced⟩ := least_of_settle (needed_none l) hlayout
    -- where the node ends and where its label stands are both in the code
    have htarget := Listing.positionIn?_le (hplaced.resolve_eq_ok_iff.mp htarget)
    have hstop := l.start_add_sizeIn_le (S := layout.longNodes) hid
    rw [Listing.sizeIn_eq hn, decide_mem_longNodes] at hstop
    obtain rfl := Option.some.inj ((hplaced.offset id hid).symm.trans hstart)
    rw [← hplaced.codeSize] at htarget hstop
    exact absurd ⟨by omega, by omega⟩ hreach
  · exact ⟨bytes, rfl⟩

/-- What can be written, and takes up to 31 bits of positions in some valid choice of forms, is
laid out in as many passes as it has branches and one, and is written. -/
theorem exists_written (hl : l.Writable) (hnodes : ∀ id ∈ l.order, ∃ n, l.nodes[id]? = some n)
    {S : Finset NodeId} (hS : l.Valid S) (hfit : l.extent S l.order ≤ 0x7FFFFFFF) :
    ∃ layout bytes, (∀ limit, l.branches.card < limit → Layout.of l limit = .ok layout) ∧
      assemble l layout = .ok bytes := by
  obtain ⟨layout, hpasses, hof⟩ := exists_of (hl.resolves hnodes)
    ⟨S, hS, Nat.le_trans hfit (by decide)⟩
  have hlayout : ∀ limit, l.branches.card < limit → Layout.of l limit = .ok layout :=
    fun limit hlt => (hof limit).trans (if_pos (by omega))
  have hfound := hlayout _ (Nat.lt_succ_self _)
  obtain ⟨hleast, hplaced⟩ := least_of_settle (needed_none l) hfound
  have hsize : layout.codeSize ≤ 0x7FFFFFFF := by
    rw [hplaced.codeSize]
    exact Nat.le_trans (l.extent_mono (hleast.2 hS) l.order) hfit
  obtain ⟨bytes, hbytes⟩ := exists_assemble hl hfound hsize
  exact ⟨layout, bytes, hlayout, hbytes⟩

end Writing

end CilProbe
