/-
CilProbe/Proofs/Code/Forms.lean

Choices of forms.  A listing leaves open which of its branches are long.  Once a set `S` of
long branches is chosen, sizes and positions follow: a node begins behind all bytes in front
of it (`Listing.start`), and a choice is valid if every branch that it leaves short reaches
its target (`Listing.Valid`).

Between a branch and its target stand always the same nodes, whatever is chosen
(`ahead_or_behind`), so when more branches are long, the way that a short one has to go gets
longer and keeps its direction.  That is `reaches_of_subset`: what reaches in a large choice
reaches in a smaller one.  A branch that does not reach is therefore long in every valid
choice around.
-/
import CilProbe.Proofs.Code.Agreement
import Mathlib.Data.Finset.Card

namespace CilProbe

namespace Listing

variable {l : Listing} {S S' : Finset NodeId} {id id' : NodeId}

/-! ### Sizes and positions -/

/-- The branches of the code, each of them once. -/
def branches (l : Listing) : Finset NodeId := (l.order.filter l.isBranch).toFinset

/-- Bytes of a node where the branches in `S` are long; a node that does not exist has none. -/
def sizeIn (l : Listing) (S : Finset NodeId) (id : NodeId) : Nat :=
  (l.nodes[id]?).elim 0 fun n => Layout.nodeSize n.instruction (decide (id ∈ S))

/-- Bytes of some nodes. -/
def extent (l : Listing) (S : Finset NodeId) : List NodeId → Nat
  | [] => 0
  | id :: ids => l.sizeIn S id + extent l S ids

/-- The nodes in front of a node; if it occurs more than once, in front of where it stands
last. -/
def inFront (id : NodeId) : List NodeId → List NodeId
  | [] => []
  | id' :: ids => if id ∈ ids then id' :: inFront id ids else []

/-- Where a node of the code begins. -/
def start (l : Listing) (S : Finset NodeId) (id : NodeId) : Nat := l.extent S (inFront id l.order)

/-- The position of what a label can stand for. -/
def positionIn? (l : Listing) (S : Finset NodeId) : Binding → Option Nat
  | .node id => if id ∈ l.order then some (l.start S id) else none
  | .atEnd => some (l.extent S l.order)
  | .unbound => none

/-- In its short form, the branch gets to its target. -/
def ReachesIn (l : Listing) (S : Finset NodeId) (id : NodeId) : Prop :=
  ∃ n label target, l.nodes[id]? = some n ∧ n.instruction.operand = .target label ∧
    l.positionIn? S (l.binding label) = some target ∧
    ShortReach ((target : Int) - (l.start S id + 2))

/-- Every branch of the code is long or gets to its target, and nothing else is long. -/
structure Valid (l : Listing) (S : Finset NodeId) : Prop where
  branches : S ⊆ l.branches
  reaches : ∀ id ∈ l.branches, id ∉ S → l.ReachesIn S id

/-- Every node of the code exists, and the branches among them have labels that stand for a
node of the code or for its end. -/
structure Resolves (l : Listing) : Prop where
  exists_node : ∀ id ∈ l.order, ∃ n, l.nodes[id]? = some n
  exists_label : ∀ id ∈ l.order, ∀ n, l.nodes[id]? = some n → n.instruction.opcode.isBranch →
    ∃ label, n.instruction.operand = .target label ∧
      (l.binding label = .atEnd ∨ ∃ id' ∈ l.order, l.binding label = .node id')

/-- Where some valid choice does not take more positions than there are. -/
def Fits (l : Listing) : Prop := ∃ S, l.Valid S ∧ l.extent S l.order ≤ Offset.last

theorem mem_branches : id ∈ l.branches ↔ id ∈ l.order ∧ l.isBranch id = true := by
  simp [branches]

/-- A label with a position stands for a node of the code or for its end. -/
theorem placed_of_positionIn? {b : Binding} {target : Nat} (h : l.positionIn? S b = some target) :
    b = .atEnd ∨ ∃ id ∈ l.order, b = .node id := by
  cases b with
  | unbound => cases h
  | atEnd => exact .inl rfl
  | node id =>
    refine .inr ⟨id, ?_, rfl⟩
    by_contra hid
    rw [positionIn?, if_neg hid] at h
    cases h

theorem isBranch_iff {n : Node} (hn : l.nodes[id]? = some n) :
    l.isBranch id = true ↔ n.instruction.opcode.isBranch = true := by
  simp [isBranch, hn]

theorem sizeIn_eq {n : Node} (hn : l.nodes[id]? = some n) (S : Finset NodeId) :
    l.sizeIn S id = Layout.nodeSize n.instruction (decide (id ∈ S)) := by
  rw [sizeIn, hn]
  rfl

/-- A short branch takes two bytes. -/
theorem sizeIn_short (hbranch : l.isBranch id = true) (hid : id ∉ S) : l.sizeIn S id = 2 := by
  rcases hn : l.nodes[id]? with - | n
  · simp [isBranch, hn] at hbranch
  · rw [sizeIn_eq hn, Layout.nodeSize, if_pos ((isBranch_iff hn).mp hbranch), if_neg (by simpa)]

theorem sizeIn_mono (h : S ⊆ S') (id : NodeId) : l.sizeIn S id ≤ l.sizeIn S' id := by
  rcases hn : l.nodes[id]? with - | n
  · simp [sizeIn, hn]
  rw [sizeIn_eq hn, sizeIn_eq hn]
  unfold Layout.nodeSize
  split
  · by_cases hid : id ∈ S
    · simp [hid, h hid]
    · by_cases hid' : id ∈ S' <;> simp [hid, hid']
  · exact Nat.le_refl _

@[simp] theorem extent_nil (l : Listing) (S : Finset NodeId) : l.extent S [] = 0 := rfl

@[simp] theorem extent_cons (l : Listing) (S : Finset NodeId) (id : NodeId) (ids : List NodeId) :
    l.extent S (id :: ids) = l.sizeIn S id + l.extent S ids := rfl

@[simp] theorem extent_append (l : Listing) (S : Finset NodeId) (ids ids' : List NodeId) :
    l.extent S (ids ++ ids') = l.extent S ids + l.extent S ids' := by
  induction ids with
  | nil => exact (Nat.zero_add _).symm
  | cons id ids ih => rw [List.cons_append, extent_cons, extent_cons, ih, Nat.add_assoc]

theorem extent_mono (h : S ⊆ S') (ids : List NodeId) : l.extent S ids ≤ l.extent S' ids := by
  induction ids with
  | nil => exact Nat.le_refl _
  | cons id ids ih =>
    have := l.sizeIn_mono h id
    simp only [extent_cons]
    omega

/-- Where all branches are short they take two bytes each. -/
theorem extent_empty {ids : List NodeId} (hbranch : ∀ id ∈ ids, l.isBranch id = true) :
    l.extent ∅ ids = 2 * ids.length := by
  induction ids with
  | nil => rfl
  | cons id ids ih =>
    obtain ⟨hid, hids⟩ := List.forall_mem_cons.mp hbranch
    rw [extent_cons, sizeIn_short hid (Finset.notMem_empty id), ih hids, List.length_cons]
    omega

/-! ### Where a node stands last -/

theorem inFront_append {front rest : List NodeId} (h : id ∉ rest) :
    inFront id (front ++ id :: rest) = front := by
  induction front with
  | nil => exact if_neg h
  | cons id' front ih =>
    show (if id ∈ front ++ id :: rest then id' :: inFront id (front ++ id :: rest) else []) = _
    rw [if_pos (by simp), ih]

theorem exists_rest {ids : List NodeId} (h : id ∈ ids) :
    ∃ rest, id ∉ rest ∧ ids = inFront id ids ++ id :: rest := by
  induction ids with
  | nil => cases h
  | cons id' ids ih =>
    by_cases hmem : id ∈ ids
    · obtain ⟨rest, hrest, hids⟩ := ih hmem
      refine ⟨rest, hrest, ?_⟩
      rw [inFront, if_pos hmem, List.cons_append, ← hids]
    · obtain rfl : id = id' := (List.mem_cons.mp h).resolve_right hmem
      exact ⟨ids, hmem, by rw [inFront, if_neg hmem]; rfl⟩

theorem start_append {front rest : List NodeId} (hl : l.order = front ++ id :: rest)
    (hrest : id ∉ rest) : l.start S id = l.extent S front := by
  rw [start, hl, inFront_append hrest]

/-- Of two nodes of the code the nodes between them do not depend on what is long. -/
theorem start_cases (hid : id ∈ l.order) (hid' : id' ∈ l.order) :
    ∃ between, (∀ S, l.start S id' = l.start S id + l.sizeIn S id + l.extent S between) ∨
      ∀ S, l.start S id = l.start S id' + l.extent S between := by
  obtain ⟨rest, hrest, hl⟩ := exists_rest hid
  obtain ⟨rest', hrest', hl'⟩ := exists_rest hid'
  set front := inFront id l.order
  set front' := inFront id' l.order
  rcases List.append_eq_append_iff.mp (hl.symm.trans hl') with
    ⟨between, hfront, htail⟩ | ⟨between, hfront, -⟩
  · -- the second node does not stand in front of the first one; it may be the same
    rcases between with - | ⟨first, between⟩
    · refine ⟨[], .inr fun S => ?_⟩
      rw [start_append hl hrest, start_append hl' hrest', hfront]
      simp
    · obtain ⟨rfl, -⟩ := List.cons.inj htail
      refine ⟨between, .inl fun S => ?_⟩
      rw [start_append hl hrest, start_append hl' hrest', hfront, extent_append, extent_cons]
      omega
  · refine ⟨between, .inr fun S => ?_⟩
    rw [start_append hl hrest, start_append hl' hrest', hfront, extent_append]

/-- The same for a node and what a label can stand for. -/
theorem ahead_or_behind (hid : id ∈ l.order) {b : Binding} {target : Nat}
    (hb : l.positionIn? S b = some target) :
    ∃ between,
      (∀ S, l.positionIn? S b = some (l.start S id + l.sizeIn S id + l.extent S between)) ∨
      ∀ S, ∃ target, l.positionIn? S b = some target ∧
        l.start S id = target + l.extent S between := by
  cases b with
  | unbound => cases hb
  | atEnd =>
    obtain ⟨rest, hrest, hl⟩ := exists_rest hid
    refine ⟨rest, .inl fun S => congrArg some ?_⟩
    rw [start_append hl hrest]
    conv_lhs => rw [hl, extent_append, extent_cons]
    omega
  | node id' =>
    obtain ⟨⟨⟩⟩ | ⟨id', hid', ⟨⟩⟩ := placed_of_positionIn? hb
    obtain ⟨between, h | h⟩ := start_cases hid hid'
    · refine ⟨between, .inl fun S => ?_⟩
      rw [positionIn?, if_pos hid', h S]
    · exact ⟨between, .inr fun S => ⟨l.start S id', by rw [positionIn?, if_pos hid'], h S⟩⟩

/-! ### Reach -/

/-- What reaches where more is long reaches where less is. -/
theorem reaches_of_subset (hid : id ∈ l.branches) (h : S ⊆ S') (hshort : id ∉ S')
    (hreach : l.ReachesIn S' id) : l.ReachesIn S id := by
  obtain ⟨hmem, hbranch⟩ := mem_branches.mp hid
  obtain ⟨n, label, target', hn, hlabel, htarget', hfits⟩ := hreach
  obtain ⟨between, hahead | hbehind⟩ := ahead_or_behind hmem htarget'
  · -- forwards: the way is what stands between, which only gets longer
    refine ⟨n, label, _, hn, hlabel, hahead S, ?_⟩
    obtain rfl := Option.some.inj ((hahead S').symm.trans htarget')
    have hle := l.extent_mono h between
    rw [sizeIn_short hbranch hshort] at hfits
    rw [sizeIn_short hbranch fun hin => hshort (h hin)]
    unfold ShortReach at hfits ⊢
    omega
  · -- backwards: the way is what stands between and the branch, in its short form in both
    obtain ⟨target, htarget, hstart⟩ := hbehind S
    obtain ⟨p, hp, hstart'⟩ := hbehind S'
    obtain rfl := Option.some.inj (hp.symm.trans htarget')
    refine ⟨n, label, target, hn, hlabel, htarget, ?_⟩
    have hle := l.extent_mono h between
    unfold ShortReach at hfits ⊢
    omega

/-- A short branch to itself goes back over its own two bytes, wherever it stands. -/
theorem reachesIn_self {op : Opcode} (hact : l.actOf id = some ⟨op, .target (.node id)⟩)
    (hid : id ∈ l.order) (S : Finset NodeId) : l.ReachesIn S id := by
  obtain ⟨n, hn, hsays⟩ := Option.map_eq_some_iff.mp hact
  have hoperand : n.instruction.operand.map l.binding = .target (.node id) :=
    congrArg Act.operand hsays
  cases hlabel : n.instruction.operand with
  | target label =>
    rw [hlabel] at hoperand
    have hbinding : l.binding label = .node id := Operand.target.inj hoperand
    refine ⟨n, label, l.start S id, hn, hlabel, ?_, ?_⟩
    · rw [hbinding, positionIn?, if_pos hid]
    · unfold ShortReach
      omega
  | _ =>
    rw [hlabel] at hoperand
    cases hoperand

/-- A branch that does not reach is long in every valid choice around. -/
theorem Valid.mem_of_not_reaches (hS' : l.Valid S') (h : S ⊆ S') (hid : id ∈ l.branches)
    (hreach : ¬l.ReachesIn S id) : id ∈ S' := by
  by_contra hshort
  exact hreach (reaches_of_subset hid h hshort (hS'.reaches id hid hshort))

/-- With all branches long, none has to reach anything in its short form. -/
theorem valid_branches (l : Listing) : l.Valid l.branches :=
  ⟨subset_rfl, fun _ hid hshort => absurd hid hshort⟩

theorem Resolves.exists_position (hl : l.Resolves) (hid : id ∈ l.branches) (S : Finset NodeId) :
    ∃ n label target, l.nodes[id]? = some n ∧ n.instruction.operand = .target label ∧
      l.positionIn? S (l.binding label) = some target := by
  obtain ⟨hmem, hbranch⟩ := mem_branches.mp hid
  obtain ⟨n, hn⟩ := hl.exists_node id hmem
  obtain ⟨label, hlabel, h | ⟨id', hid', h⟩⟩ :=
    hl.exists_label id hmem n hn ((isBranch_iff hn).mp hbranch)
  · exact ⟨n, label, _, hn, hlabel, by rw [h]; rfl⟩
  · exact ⟨n, label, _, hn, hlabel, by rw [h, positionIn?, if_pos hid']⟩

end Listing

end CilProbe
