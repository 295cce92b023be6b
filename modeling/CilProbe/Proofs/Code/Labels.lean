/-
CilProbe/Proofs/Code/Labels.lean

Labels for positions of the initial code while the code is under edit.  A label is made when it
is first asked for, so what it stands for could depend on when that is.  `Edited.Of` is what
every change keeps: positions are what they were, and a label made for one stands for what is
there, unless that is the end of the code.

The end can be moved to a node (`rebindEnd`), and then the moment matters: the labels there are
move with it, but a label made afterwards is for the end of the code as it is now
(`meaning_of_unasked`).  So labels for instructions are the same whenever they are asked for, and
labels for the end are if the end is not moved in between (`labels_stable`).
-/
import CilProbe.Proofs.Code.Listing

namespace CilProbe

namespace Listing

/-! ### Changes -/

/-- Code under edit, with the labels that were made for no position, in their order. -/
structure Edited where
  /-- The code. -/
  listing : Listing
  /-- The labels. -/
  fresh : List Label

/-- A change to code under edit. -/
inductive Change where
  /-- The label for a position of the initial code is asked for. -/
  | labelAt (offset : Offset)
  /-- A label is made that stands for nothing yet. -/
  | newLabel
  /-- The label of that number among those made for no position is to stand for a node. -/
  | bind (number : Nat) (id : NodeId)
  /-- A node is added. -/
  | addNode (i : Instruction Label)
  /-- The code is to be made up of these nodes. -/
  | setOrder (order : List NodeId)
  /-- The end of the code is moved to a node. -/
  | rebindEnd (id : NodeId)
  deriving DecidableEq

namespace Change

/-- The code after a change; what fails changes nothing. -/
def apply (e : Edited) : Change → Edited
  | labelAt offset =>
    match (Listing.labelAt offset).run e.listing with
    | .ok (_, l) => { e with listing := l }
    | .error _ => e
  | newLabel =>
    match Listing.newLabel.run e.listing with
    | .ok (label, l) => ⟨l, e.fresh ++ [label]⟩
    | .error _ => e
  | bind number id =>
    match e.fresh[number]? with
    | some label => { e with listing := e.listing.bind label id }
    | none => e
  | addNode i => { e with listing := (e.listing.addNode i).2 }
  | setOrder order => { e with listing := e.listing.setOrder order }
  | rebindEnd id => { e with listing := e.listing.rebindEnd id }

/-- The node that the end is moved to. -/
def newEnd? : Change → Option NodeId
  | rebindEnd id => some id
  | _ => none

end Change

/-- A listing after some changes. -/
def made (l : Listing) (changes : List Change) : Listing :=
  (changes.foldl Change.apply ⟨l, []⟩).listing

/-- What the label for a position stands for that is answered after some changes. -/
def meaning (l : Listing) (changes : List Change) (offset : Offset) : Option Binding :=
  match (labelAt offset).run (l.made changes) with
  | .ok (label, l') => some (l'.binding label)
  | .error _ => none

/-- What a label for the end stands for after some changes: the first node that the end is
moved to. -/
def endAfter (changes : List Change) : Binding :=
  (changes.findSome? Change.newEnd?).elim .atEnd .node

theorem endAfter_cons (c : Change) (changes : List Change) :
    endAfter (c :: changes) = c.newEnd?.elim (endAfter changes) .node := by
  unfold endAfter
  rw [List.findSome?_cons]
  rcases c.newEnd? with - | id <;> rfl

/-- Changes that leave the end where it is do not matter. -/
theorem endAfter_append {between : List Change} (h : ∀ id, .rebindEnd id ∉ between)
    (after : List Change) : endAfter (between ++ after) = endAfter after := by
  have hnone : between.findSome? Change.newEnd? = none := by
    rw [List.findSome?_eq_none_iff]
    rintro (- | - | - | - | - | id) hc <;> try rfl
    exact (h id hc).elim
  rw [endAfter, List.findSome?_append, hnone]
  rfl

theorem endAfter_append_labelAt (before after : List Change) (offset : Offset) :
    endAfter (before ++ .labelAt offset :: after) = endAfter (before ++ after) := by
  unfold endAfter
  rw [List.findSome?_append, List.findSome?_append]
  rfl

/-! ### Asking for a label -/

variable {l l' : Listing} {e : Edited} {offset : Offset} {label : Label} {b : Binding}

/-- The listing with a new label for a position. -/
def labelled (l : Listing) (offset : Offset) (b : Binding) : Listing :=
  { (l.addLabel b).2 with positionLabels := l.positionLabels.insert offset l.bindings.size }

theorem run_labelAt_of_label (h : l.positionLabels[offset]? = some label) :
    (labelAt offset).run l = .ok (label, l) := by
  simp only [labelAt, StateT.run, h]

theorem run_labelAt_of_new (h : l.positionLabels[offset]? = none)
    (hb : l.bindingAt? offset = some b) :
    (labelAt offset).run l = .ok (l.bindings.size, l.labelled offset b) := by
  simp only [labelAt, StateT.run, h, hb]
  rfl

theorem run_labelAt_of_none (h : l.positionLabels[offset]? = none)
    (hb : l.bindingAt? offset = none) :
    (labelAt offset).run l = .error (.malformed (.notBoundary offset)) := by
  simp only [labelAt, StateT.run, h, hb]

/-- A label that is answered is the one of the position from then on. -/
theorem positionLabels_of_run (h : (labelAt offset).run l = .ok (label, l')) :
    l'.positionLabels[offset]? = some label := by
  rcases hold : l.positionLabels[offset]? with - | old
  · rcases hb : l.bindingAt? offset with - | b
    · rw [run_labelAt_of_none hold hb] at h
      cases h
    · rw [run_labelAt_of_new hold hb] at h
      cases h
      exact Std.HashMap.getElem?_insert_self
  · rw [run_labelAt_of_label hold] at h
    cases h
    exact hold

theorem binding_labelled (label : Label) : (l.labelled offset b).binding label =
    if label = l.bindings.size then b else l.binding label := binding_addLabel b label

theorem positionLabels_labelled (offset' : Offset) :
    (l.labelled offset b).positionLabels[offset']? =
      if offset = offset' then some l.bindings.size else l.positionLabels[offset']? := by
  show (l.positionLabels.insert offset l.bindings.size)[offset']? = _
  simp only [Std.HashMap.getElem?_insert, beq_iff_eq]

/-- What asking for a label does to code under edit: nothing, or there is a new label. -/
theorem apply_labelAt (e : Edited) (offset : Offset) :
    (Change.labelAt offset).apply e = e ∨
      e.listing.positionLabels[offset]? = none ∧ ∃ b, e.listing.bindingAt? offset = some b ∧
        (Change.labelAt offset).apply e = { e with listing := e.listing.labelled offset b } := by
  rcases hlabel : e.listing.positionLabels[offset]? with - | label
  · rcases hb : e.listing.bindingAt? offset with - | b
    · exact .inl (by simp only [Change.apply, run_labelAt_of_none hlabel hb])
    · exact .inr ⟨rfl, b, rfl, by simp only [Change.apply, run_labelAt_of_new hlabel hb]⟩
  · exact .inl (by simp only [Change.apply, run_labelAt_of_label hlabel])

/-- Binding a label that was made for no position. -/
theorem apply_bind (e : Edited) (number : Nat) (id : NodeId) :
    (Change.bind number id).apply e = e ∨ ∃ label ∈ e.fresh,
      (Change.bind number id).apply e = { e with listing := e.listing.bind label id } := by
  rcases hlabel : e.fresh[number]? with - | label
  · exact .inl (by simp only [Change.apply, hlabel])
  · exact .inr ⟨label, List.mem_of_getElem? hlabel, by simp only [Change.apply, hlabel]⟩

/-! ### Numbers -/

/-- A change makes at most one node and one label. -/
theorem sizes_apply_le (e : Edited) (c : Change) :
    (c.apply e).listing.nodes.size ≤ e.listing.nodes.size + 1 ∧
      (c.apply e).listing.bindings.size ≤ e.listing.bindings.size + 1 := by
  have hsame : ∀ n : Nat, n ≤ n + 1 := fun n => Nat.le_succ n
  cases c with
  | labelAt offset =>
    rcases apply_labelAt e offset with heq | ⟨-, b, -, heq⟩
    · rw [heq]
      exact ⟨hsame _, hsame _⟩
    · rw [heq]
      exact ⟨hsame _, Nat.le_of_eq (Array.size_push _)⟩
  | newLabel => exact ⟨hsame _, Nat.le_of_eq (Array.size_push _)⟩
  | bind number id =>
    rcases apply_bind e number id with heq | ⟨label, -, heq⟩
    · rw [heq]
      exact ⟨hsame _, hsame _⟩
    · rw [heq]
      exact ⟨hsame _, Nat.le_trans (Nat.le_of_eq Array.size_setIfInBounds) (hsame _)⟩
  | addNode i => exact ⟨Nat.le_of_eq (Array.size_push _), hsame _⟩
  | setOrder order => exact ⟨hsame _, hsame _⟩
  | rebindEnd id => exact ⟨hsame _, Nat.le_trans (Nat.le_of_eq Array.size_map) (hsame _)⟩

theorem sizes_foldl_le (changes : List Change) : ∀ e : Edited,
    (changes.foldl Change.apply e).listing.nodes.size ≤ e.listing.nodes.size + changes.length ∧
      (changes.foldl Change.apply e).listing.bindings.size ≤
        e.listing.bindings.size + changes.length := by
  induction changes with
  | nil => exact fun e => ⟨Nat.le_refl _, Nat.le_refl _⟩
  | cons c changes ih =>
    intro e
    obtain ⟨hnodes, hlabels⟩ := sizes_apply_le e c
    obtain ⟨hnodes', hlabels'⟩ := ih (c.apply e)
    simp only [List.foldl_cons, List.length_cons]
    omega

/-- Nodes and labels are numbered without end.  A 32-bit word holds the number of the next one
as long as there were fewer than 2^32 of them and of changes. -/
theorem numbers_made_lt {changes : List Change}
    (hnodes : l.nodes.size + changes.length < 0x100000000)
    (hlabels : l.bindings.size + changes.length < 0x100000000) (i : Instruction Label)
    (b : Binding) :
    ((l.made changes).addNode i).1 < 0x100000000 ∧
      ((l.made changes).addLabel b).1 < 0x100000000 := by
  obtain ⟨hnodes', hlabels'⟩ := sizes_foldl_le changes ⟨l, []⟩
  exact ⟨Nat.lt_of_le_of_lt hnodes' hnodes, Nat.lt_of_le_of_lt hlabels' hlabels⟩

/-! ### What changes keep -/

/-- A label for a position in code under edit that was a listing at first: it is none of those
made for no position, and stands for what is at the position, unless that is the end. -/
structure Edited.LabelOf (l : Listing) (e : Edited) (offset : Offset) (label : Label) : Prop where
  lt : label < e.listing.bindings.size
  not_fresh : label ∉ e.fresh
  boundary : ∃ b, l.bindingAt? offset = some b
  binding : ∀ id, l.bindingAt? offset = some (.node id) → e.listing.binding label = .node id

/-- Labels that stand for nodes are all that matters. -/
theorem Edited.LabelOf.keep {e' : Edited} (h : e.LabelOf l offset label)
    (hsize : e.listing.bindings.size ≤ e'.listing.bindings.size) (hfresh : label ∉ e'.fresh)
    (hkeep : ∀ id, e.listing.binding label = .node id → e'.listing.binding label = .node id) :
    e'.LabelOf l offset label :=
  ⟨Nat.lt_of_lt_of_le h.lt hsize, hfresh, h.boundary, fun id hid => hkeep id (h.binding id hid)⟩

/-- Code under edit that was a listing at first. -/
structure Edited.Of (l : Listing) (e : Edited) : Prop where
  positionNodes : e.listing.positionNodes = l.positionNodes
  initialSize : e.listing.initialSize = l.initialSize
  fresh_lt : ∀ label ∈ e.fresh, label < e.listing.bindings.size
  labels : ∀ offset label, e.listing.positionLabels[offset]? = some label →
    e.LabelOf l offset label

namespace Edited.Of

theorem bindingAt? (h : e.Of l) (offset : Offset) :
    e.listing.bindingAt? offset = l.bindingAt? offset := by
  unfold Listing.bindingAt?
  rw [h.positionNodes, h.initialSize]

/-- A label more for a position. -/
theorem labelled (h : e.Of l) (hb : e.listing.bindingAt? offset = some b) :
    Edited.Of l { e with listing := e.listing.labelled offset b } := by
  have hsize : (e.listing.labelled offset b).bindings.size = e.listing.bindings.size + 1 :=
    Array.size_push b
  refine ⟨h.positionNodes, h.initialSize, fun label hlabel => ?fresh,
    fun offset' label hlabel => ?_⟩
  case fresh => exact hsize ▸ Nat.lt_succ_of_lt (h.fresh_lt label hlabel)
  rw [positionLabels_labelled] at hlabel
  split at hlabel
  · next heq =>
    obtain rfl := Option.some.inj hlabel
    rw [← heq, h.bindingAt?] at *
    refine ⟨hsize ▸ Nat.lt_succ_self _, fun hfresh => ?_, ⟨b, hb⟩, fun id hid => ?_⟩
    · exact Nat.lt_irrefl _ (h.fresh_lt _ hfresh)
    · rw [binding_labelled, if_pos rfl]
      exact Option.some.inj (hb.symm.trans hid)
  · have hold := h.labels offset' label hlabel
    refine hold.keep (hsize ▸ Nat.le_succ _) hold.not_fresh fun id hid => ?_
    rw [binding_labelled, if_neg (Nat.ne_of_lt hold.lt), hid]

/-- A label more for no position. -/
theorem newLabel (h : e.Of l) : (Change.newLabel.apply e).Of l := by
  have hsize : (Change.newLabel.apply e).listing.bindings.size = e.listing.bindings.size + 1 := by
    show (e.listing.bindings.push .unbound).size = _
    exact Array.size_push _
  refine ⟨h.positionNodes, h.initialSize, fun label hlabel => ?fresh, fun offset label hlabel => ?_⟩
  case fresh =>
    rw [hsize]
    rcases List.mem_append.mp hlabel with hlabel | hlabel
    · exact Nat.lt_succ_of_lt (h.fresh_lt label hlabel)
    · exact Nat.lt_succ_of_le (Nat.le_of_eq (List.mem_singleton.mp hlabel))
  have hold := h.labels offset label hlabel
  refine hold.keep (hsize ▸ Nat.le_succ _) (fun hfresh => ?_) fun id hid => ?_
  · rcases List.mem_append.mp hfresh with hfresh | hfresh
    · exact hold.not_fresh hfresh
    · exact Nat.ne_of_lt hold.lt (List.mem_singleton.mp hfresh)
  · exact (binding_addLabel_of_bound .unbound (by rw [hid]; exact Binding.noConfusion)).trans hid

/-- A label that was made for no position is bound. -/
theorem bind (h : e.Of l) {fresh : Label} (hfresh : fresh ∈ e.fresh) (id : NodeId) :
    Edited.Of l { e with listing := e.listing.bind fresh id } := by
  have hsize : (e.listing.bind fresh id).bindings.size = e.listing.bindings.size :=
    Array.size_setIfInBounds
  refine ⟨h.positionNodes, h.initialSize, fun label hlabel => hsize ▸ h.fresh_lt label hlabel,
    fun offset label hlabel => ?_⟩
  have hold := h.labels offset label hlabel
  refine hold.keep (Nat.le_of_eq hsize.symm) hold.not_fresh fun id' hid' => ?_
  have hne : fresh ≠ label := fun heq => hold.not_fresh (heq ▸ hfresh)
  rw [binding_bind, if_neg (fun heq => hne heq.1), hid']

/-- The end is moved. -/
theorem rebindEnd (h : e.Of l) (id : NodeId) :
    Edited.Of l { e with listing := e.listing.rebindEnd id } := by
  have hsize : (e.listing.rebindEnd id).bindings.size = e.listing.bindings.size := Array.size_map
  refine ⟨h.positionNodes, h.initialSize, fun label hlabel => hsize ▸ h.fresh_lt label hlabel,
    fun offset label hlabel => ?_⟩
  have hold := h.labels offset label hlabel
  refine hold.keep (Nat.le_of_eq hsize.symm) hold.not_fresh fun id' hid' => ?_
  rw [binding_rebindEnd, hid', if_neg Binding.noConfusion]

/-- Other nodes or another order. -/
theorem recode (h : e.Of l) (nodes : Array Node) (order : List NodeId) :
    Edited.Of l { e with listing := { e.listing with nodes, order } } :=
  ⟨h.positionNodes, h.initialSize, h.fresh_lt, fun offset label hlabel =>
    (h.labels offset label hlabel).keep (Nat.le_refl _) (h.labels offset label hlabel).not_fresh
      fun _ hid => hid⟩

/-- Every change leaves labels for positions as they should be. -/
theorem apply (h : e.Of l) (c : Change) : (c.apply e).Of l := by
  cases c
  case labelAt offset =>
    obtain heq | ⟨-, b, hb, heq⟩ := apply_labelAt e offset
    · rwa [heq]
    · rw [heq]
      exact h.labelled hb
  case newLabel => exact h.newLabel
  case bind number id =>
    obtain heq | ⟨fresh, hfresh, heq⟩ := apply_bind e number id
    · rwa [heq]
    · rw [heq]
      exact h.bind hfresh id
  case addNode i => exact h.recode _ e.listing.order
  case setOrder order => exact h.recode e.listing.nodes order
  case rebindEnd id => exact h.rebindEnd id

theorem foldl (h : e.Of l) (changes : List Change) : (changes.foldl Change.apply e).Of l := by
  induction changes generalizing e with
  | nil => exact h
  | cons c changes ih => exact ih (h.apply c)

end Edited.Of

/-! ### Labels along changes -/

/-- A position gets a label when it is asked for one, and keeps it. -/
theorem positionLabels_apply {c : Change}
    (hc : c = .labelAt offset → (e.listing.positionLabels[offset]?).isSome) :
    (c.apply e).listing.positionLabels[offset]? = e.listing.positionLabels[offset]? := by
  cases c
  case labelAt offset' =>
    obtain heq | ⟨hnone, b, -, heq⟩ := apply_labelAt e offset'
    · rw [heq]
    · have hne : offset' ≠ offset := by
        rintro rfl
        exact Option.isSome_iff_ne_none.mp (hc rfl) hnone
      rw [heq]
      exact (positionLabels_labelled offset).trans (if_neg hne)
  case bind number id =>
    obtain heq | ⟨fresh, -, heq⟩ := apply_bind e number id
    · rw [heq]
    · rw [heq]
      rfl
  all_goals rfl

/-- Changes that do not move the end leave a label for a position alone. -/
theorem binding_apply {c : Change} (he : e.Of l)
    (hlabel : e.listing.positionLabels[offset]? = some label) (hc : c.newEnd? = none) :
    (c.apply e).listing.binding label = e.listing.binding label := by
  have hof := he.labels offset label hlabel
  have hlt : label ≠ e.listing.bindings.size := Nat.ne_of_lt hof.lt
  cases c
  case labelAt offset' =>
    obtain heq | ⟨-, b, -, heq⟩ := apply_labelAt e offset'
    · rw [heq]
    · rw [heq, binding_labelled, if_neg hlt]
  case newLabel => exact (binding_addLabel .unbound label).trans (if_neg hlt)
  case bind number id =>
    obtain heq | ⟨fresh, hfresh, heq⟩ := apply_bind e number id
    · rw [heq]
    · have hne : fresh ≠ label := fun h => hof.not_fresh (h ▸ hfresh)
      rw [heq, binding_bind, if_neg fun h => hne h.1]
  case rebindEnd id => cases hc
  all_goals rfl

/-- A label for the end follows the end, and every other label stays what it is. -/
theorem label_foldl (he : e.Of l) (hlabel : e.listing.positionLabels[offset]? = some label)
    (changes : List Change) :
    (changes.foldl Change.apply e).listing.positionLabels[offset]? = some label ∧
      (changes.foldl Change.apply e).listing.binding label =
        if e.listing.binding label = .atEnd then endAfter changes else e.listing.binding label := by
  induction changes generalizing e with
  | nil =>
    refine ⟨hlabel, ?_⟩
    show e.listing.binding label = _
    split
    · next hend => exact hend
    · rfl
  | cons c changes ih =>
    have hkept : (c.apply e).listing.positionLabels[offset]? = some label := by
      rw [positionLabels_apply fun _ => by rw [hlabel]; rfl, hlabel]
    obtain ⟨hlabel', hbinding⟩ := ih (he.apply c) hkept
    refine ⟨hlabel', hbinding.trans ?_⟩
    rcases hc : c.newEnd? with - | id
    · -- a change that leaves the end alone leaves the label alone
      rw [binding_apply he hlabel hc, endAfter_cons, hc]
      rfl
    · -- once it stands for a node, it does not follow the end again
      obtain rfl : c = .rebindEnd id := by
        cases c <;> cases hc
        rfl
      have hmoved : ((Change.rebindEnd id).apply e).listing.binding label =
          if e.listing.binding label = .atEnd then .node id else e.listing.binding label :=
        binding_rebindEnd id label
      rw [hmoved, endAfter_cons]
      by_cases hend : e.listing.binding label = .atEnd
      · rw [if_pos hend, if_pos hend]
        exact if_neg Binding.noConfusion
      · rw [if_neg hend, if_neg hend, if_neg hend]

/-- A position that is asked for first gets a label, which follows the end if it is for the
end. -/
theorem exists_label_foldl (he : e.Of l) (hnone : e.listing.positionLabels[offset]? = none)
    (hb : e.listing.bindingAt? offset = some b) (changes : List Change) :
    ∃ label, let l' := ((Change.labelAt offset :: changes).foldl Change.apply e).listing
      l'.positionLabels[offset]? = some label ∧
        l'.binding label = if b = .atEnd then endAfter changes else b := by
  have hasked : (Change.labelAt offset).apply e =
      { e with listing := e.listing.labelled offset b } := by
    simp only [Change.apply, run_labelAt_of_new hnone hb]
  have hnew : (e.listing.labelled offset b).binding e.listing.bindings.size = b :=
    (binding_labelled _).trans (if_pos rfl)
  obtain ⟨hlabel, hbinding⟩ := label_foldl (he.labelled hb)
    ((positionLabels_labelled offset).trans (if_pos rfl)) changes
  rw [hnew] at hbinding
  refine ⟨e.listing.bindings.size, ?_⟩
  rw [List.foldl_cons, hasked]
  exact ⟨hlabel, hbinding⟩

/-- A position that is not asked for gets no label. -/
theorem positionLabels_foldl {changes : List Change} (h : .labelAt offset ∉ changes) :
    (changes.foldl Change.apply e).listing.positionLabels[offset]? =
      e.listing.positionLabels[offset]? := by
  induction changes generalizing e with
  | nil => rfl
  | cons c changes ih =>
    obtain ⟨hc, hchanges⟩ := List.ne_and_not_mem_of_not_mem_cons h
    exact (ih hchanges).trans (positionLabels_apply fun heq => (hc heq.symm).elim)

/-! ### Labels of decoded code -/

/-- The only labels there are for positions are for instructions. -/
def LabelsInstructions (l : Listing) : Prop :=
  ∀ (offset : Offset) (label : Label), l.positionLabels[offset]? = some label →
    ∃ id, l.positionNodes[offset]? = some id

/-- Targets of branches are instructions, so they are all that gets a label. -/
theorem targetLabel_labelsInstructions {source target : Offset}
    (hl : l.LabelsInstructions) (h : (targetLabel source target).run l = .ok (label, l')) :
    l'.LabelsInstructions := by
  obtain ⟨l₁, l₂, hget, h⟩ := run_bind_eq_ok.mp h
  obtain ⟨rfl, rfl⟩ : l = l₁ ∧ l = l₂ := by
    rw [StateT.run_get, pure_eq_ok] at hget
    exact Prod.mk.inj hget
  rcases hid : l.positionNodes[target]? with - | id
  · rw [hid] at h
    cases h
  have hat : l.bindingAt? target = some (.node id) := by rw [bindingAt?, hid]
  simp only [hid] at h
  rcases hold : l.positionLabels[target]? with - | old
  · rw [run_labelAt_of_new hold hat] at h
    cases h
    intro offset label hlabel
    rw [positionLabels_labelled] at hlabel
    split at hlabel
    · next heq => exact ⟨id, heq ▸ hid⟩
    · exact hl offset label hlabel
  · rw [run_labelAt_of_label hold] at h
    cases h
    exact hl

theorem addInitial_labelsInstructions {i : Instruction Offset}
    (hl : l.LabelsInstructions) (h : (addInitial i).run l = .ok ((), l')) :
    l'.LabelsInstructions := by
  obtain ⟨operand, l₁, hoperand, h⟩ := run_bind_eq_ok.mp h
  -- what the new targets are does not matter here
  have hmapped := @Operand.run_mapTargetsM_eq_ok _ _ Unit _ _ (targetLabel i.offset)
    LabelsInstructions (fun _ _ => ()) (fun _ => ())
  obtain ⟨hl₁, -, -⟩ := hmapped (fun t _ s label s' hs hrun =>
    ⟨targetLabel_labelsInstructions hs hrun, rfl, fun _ _ _ => rfl⟩) hl hoperand
  cases h
  exact hl₁

theorem forM_labelsInstructions {code : List (Instruction Offset)}
    (hl : l.LabelsInstructions) (h : (code.forM addInitial).run l = .ok ((), l')) :
    l'.LabelsInstructions := by
  induction code generalizing l with
  | nil =>
    obtain ⟨-, rfl⟩ := run_pure_eq_ok.mp h
    exact hl
  | cons i code ih =>
    obtain ⟨⟨⟩, l₁, hi, h⟩ := run_bind_eq_ok.mp h
    exact ih (addInitial_labelsInstructions hl hi) h

theorem ofInstructions_labelsInstructions {code : List (Instruction Offset)} {size : Offset}
    (h : ofInstructions code size = .ok l) : l.LabelsInstructions := by
  obtain ⟨⟨⟨⟩, l'⟩, hrun, h⟩ := bind_eq_ok.mp h
  obtain rfl := pure_eq_ok.mp h
  refine forM_labelsInstructions (fun offset label hlabel => ?_) hrun
  simp [empty] at hlabel

/-- Decoded code is as every change leaves it. -/
theorem of_ofInstructions {code : List (Instruction Offset)} {size : Offset}
    (h : ofInstructions code size = .ok l) : Edited.Of l ⟨l, []⟩ := by
  obtain ⟨-, hagree⟩ := mirrors_ofInstructions h
  refine ⟨rfl, rfl, fun _ hlabel => (List.not_mem_nil hlabel).elim, fun offset label hlabel => ?_⟩
  have hat := hagree offset label hlabel
  exact ⟨lt_of_binding (ne_unbound_of_bindingAt? hat), List.not_mem_nil, ⟨_, hat⟩,
    fun id hid => Option.some.inj (hat.symm.trans hid)⟩

/-! ### Meanings -/

theorem made_append (l : Listing) (changes more : List Change) :
    l.made (changes ++ more) =
      (more.foldl Change.apply (changes.foldl Change.apply ⟨l, []⟩)).listing := by
  rw [made, List.foldl_append]

theorem meaning_of_label {changes : List Change}
    (h : (l.made changes).positionLabels[offset]? = some label) :
    l.meaning changes offset = some ((l.made changes).binding label) := by
  rw [meaning, run_labelAt_of_label h]

theorem meaning_of_no_label (hl : Edited.Of l ⟨l, []⟩) {changes : List Change}
    (h : (l.made changes).positionLabels[offset]? = none) :
    l.meaning changes offset = l.bindingAt? offset := by
  have hat : (l.made changes).bindingAt? offset = l.bindingAt? offset :=
    (hl.foldl changes).bindingAt? offset
  rcases hb : l.bindingAt? offset with - | b
  · rw [meaning, run_labelAt_of_none h (hat.trans hb)]
  · rw [meaning, run_labelAt_of_new h (hat.trans hb)]
    exact congrArg some ((binding_labelled _).trans (if_pos rfl))

/-- The label for an instruction stands for it, and where there is nothing, there is no label. -/
theorem meaning_of_ne_atEnd (hl : Edited.Of l ⟨l, []⟩) (hb : l.bindingAt? offset ≠ some .atEnd)
    (changes : List Change) : l.meaning changes offset = l.bindingAt? offset := by
  rcases hlabel : (l.made changes).positionLabels[offset]? with - | label
  · exact meaning_of_no_label hl hlabel
  · have hof := (hl.foldl changes).labels offset label hlabel
    obtain ⟨b, hat⟩ := hof.boundary
    rw [meaning_of_label hlabel, hat]
    rcases b with - | id | -
    · exact (ne_unbound_of_bindingAt? hat rfl).elim
    · exact congrArg some (hof.binding id hat)
    · exact (hb hat).elim

/-- Just the boundaries have labels. -/
theorem exists_label_iff (hl : Edited.Of l ⟨l, []⟩) (changes : List Change) :
    (∃ r, (labelAt offset).run (l.made changes) = .ok r) ↔ ∃ b, l.bindingAt? offset = some b := by
  have hof : (changes.foldl Change.apply ⟨l, []⟩).Of l := hl.foldl changes
  rcases hlabel : (l.made changes).positionLabels[offset]? with - | label
  · have hat : (l.made changes).bindingAt? offset = l.bindingAt? offset := hof.bindingAt? offset
    rcases hb : l.bindingAt? offset with - | b
    · rw [run_labelAt_of_none hlabel (hat.trans hb)]
      simp
    · rw [run_labelAt_of_new hlabel (hat.trans hb)]
      simp
  · exact ⟨fun _ => (hof.labels offset label hlabel).boundary,
      fun _ => ⟨_, run_labelAt_of_label hlabel⟩⟩

/-- A label for the end that was not asked for is for the end as it is now. -/
theorem meaning_of_unasked (hl : Edited.Of l ⟨l, []⟩) (hnone : l.positionLabels[offset]? = none)
    {changes : List Change} (h : .labelAt offset ∉ changes) :
    l.meaning changes offset = l.bindingAt? offset :=
  meaning_of_no_label hl ((positionLabels_foldl h).trans hnone)

/-- A label for the end that was asked for follows the end from then on. -/
theorem meaning_of_asked (hl : Edited.Of l ⟨l, []⟩) (hnone : l.positionLabels[offset]? = none)
    (hend : l.bindingAt? offset = some .atEnd) {before : List Change}
    (h : .labelAt offset ∉ before) (after : List Change) :
    l.meaning (before ++ .labelAt offset :: after) offset = some (endAfter after) := by
  have he : (before.foldl Change.apply ⟨l, []⟩).Of l := hl.foldl before
  obtain ⟨label, hlabel, hbinding⟩ := exists_label_foldl he ((positionLabels_foldl h).trans hnone)
    ((he.bindingAt? offset).trans hend) after
  rw [← made_append] at hlabel hbinding
  rw [meaning_of_label hlabel, hbinding, if_pos rfl]

/-- Once a label is answered, it is answered again whatever happens, and asking again changes
nothing. -/
theorem run_labelAt_made (hl : Edited.Of l ⟨l, []⟩) {changes : List Change}
    (h : (labelAt offset).run (l.made changes) = .ok (label, l')) (more : List Change) :
    (labelAt offset).run (l.made (changes ++ .labelAt offset :: more)) =
      .ok (label, l.made (changes ++ .labelAt offset :: more)) := by
  have hasked : ∀ e : Edited, (labelAt offset).run e.listing = .ok (label, l') →
      (Change.labelAt offset).apply e = { e with listing := l' } := fun e he => by
    simp only [Change.apply, he]
  have hof := (hl.foldl changes).apply (.labelAt offset)
  rw [hasked _ h] at hof
  have hlabel := (label_foldl hof (positionLabels_of_run h) more).1
  rw [← hasked _ h, ← List.foldl_cons, ← made_append] at hlabel
  exact run_labelAt_of_label hlabel

/-- The label for a position stands for the same when it is asked for earlier, as long as the
end is not moved in between. -/
theorem meaning_earlier (hl : Edited.Of l ⟨l, []⟩)
    (hnone : l.bindingAt? offset = some .atEnd → l.positionLabels[offset]? = none)
    {before between after : List Change} (h : l.bindingAt? offset ≠ some .atEnd ∨
      .labelAt offset ∈ before ∨ ∀ id, .rebindEnd id ∉ between) :
    l.meaning (before ++ .labelAt offset :: (between ++ after)) offset =
      l.meaning (before ++ (between ++ .labelAt offset :: after)) offset := by
  by_cases hend : l.bindingAt? offset = some .atEnd
  case neg => rw [meaning_of_ne_atEnd hl hend, meaning_of_ne_atEnd hl hend]
  have hnone := hnone hend
  by_cases hbefore : .labelAt offset ∈ before
  · -- the label was there already
    obtain ⟨first, rest, rfl, hfirst⟩ := List.eq_append_cons_of_mem hbefore
    rw [List.append_assoc, List.append_assoc, List.cons_append, List.cons_append,
      meaning_of_asked hl hnone hend hfirst, meaning_of_asked hl hnone hend hfirst,
      endAfter_append_labelAt, ← List.append_assoc, ← List.append_assoc, endAfter_append_labelAt]
  have hbetween := (h.resolve_left (· hend)).resolve_left hbefore
  rw [meaning_of_asked hl hnone hend hbefore, endAfter_append hbetween]
  by_cases hasked : .labelAt offset ∈ between
  · -- the label is asked for in between anyway
    obtain ⟨first, rest, rfl, hfirst⟩ := List.eq_append_cons_of_mem hasked
    have hrest : ∀ id, .rebindEnd id ∉ rest := fun id hid => hbetween id (by simp [hid])
    rw [List.append_assoc, ← List.append_assoc, List.cons_append,
      meaning_of_asked hl hnone hend (by simp [hbefore, hfirst]), endAfter_append hrest]
    rfl
  · rw [← List.append_assoc, meaning_of_asked hl hnone hend (by simp [hbefore, hasked])]

/-- The answer is that of a request at the end of the changes. -/
theorem meaning_append_labelAt (hl : Edited.Of l ⟨l, []⟩)
    (hnone : l.bindingAt? offset = some .atEnd → l.positionLabels[offset]? = none)
    (changes : List Change) :
    l.meaning (changes ++ [.labelAt offset]) offset = l.meaning changes offset := by
  by_cases hend : l.bindingAt? offset = some .atEnd
  case neg => rw [meaning_of_ne_atEnd hl hend, meaning_of_ne_atEnd hl hend]
  have hnone := hnone hend
  by_cases hasked : .labelAt offset ∈ changes
  · obtain ⟨first, rest, rfl, hfirst⟩ := List.eq_append_cons_of_mem hasked
    rw [List.append_assoc, List.cons_append, meaning_of_asked hl hnone hend hfirst,
      meaning_of_asked hl hnone hend hfirst, endAfter_append_labelAt, List.append_nil]
  · rw [meaning_of_asked hl hnone hend hasked, meaning_of_unasked hl hnone hasked, hend]
    rfl

/-! ### Stability -/

variable {code : List (Instruction Offset)} {size : Offset}

/-- No label for the end is made with the code. -/
theorem positionLabels_atEnd (h : ofInstructions code size = .ok l)
    (hend : l.bindingAt? offset = some .atEnd) : l.positionLabels[offset]? = none := by
  rw [Option.eq_none_iff_forall_ne_some]
  intro label hlabel
  obtain ⟨id, hid⟩ := ofInstructions_labelsInstructions h offset label hlabel
  rw [bindingAt?, hid] at hend
  cases hend

/-- Labels for positions of decoded code, whatever is done to it.  There is one for each
boundary of the code, and always the same once it was asked for.  What the label for an
instruction stands for is that instruction, whenever it is asked for.  The label for the end
goes where the end is moved to first after it was asked for; one that was not asked for is for
the end as it is now, wherever it was moved to before.  So a label stands for the same if it is
asked for earlier or later, unless it is for the end, was not asked for before, and the end is
moved in between.  For code whose nodes and labels are numbered by 32-bit words this holds as
long as there are fewer than 2^32 nodes and labels (`numbers_made_lt`). -/
theorem labels_stable (h : ofInstructions code size = .ok l) (offset : Offset) :
    (∀ changes, (∃ r, (labelAt offset).run (l.made changes) = .ok r) ↔
      ∃ b, l.bindingAt? offset = some b) ∧
    (∀ changes more label l', (labelAt offset).run (l.made changes) = .ok (label, l') →
      (labelAt offset).run (l.made (changes ++ .labelAt offset :: more)) =
        .ok (label, l.made (changes ++ .labelAt offset :: more))) ∧
    (∀ id, l.bindingAt? offset = some (.node id) →
      ∀ changes, l.meaning changes offset = some (.node id)) ∧
    (l.bindingAt? offset = some .atEnd → ∀ before, .labelAt offset ∉ before →
      l.meaning before offset = some .atEnd ∧
      ∀ after, l.meaning (before ++ .labelAt offset :: after) offset = some (endAfter after)) ∧
    (∀ before between after,
      (l.bindingAt? offset ≠ some .atEnd ∨ .labelAt offset ∈ before ∨
        ∀ id, .rebindEnd id ∉ between) →
        l.meaning (before ++ .labelAt offset :: (between ++ after)) offset =
          l.meaning (before ++ (between ++ .labelAt offset :: after)) offset) ∧
    ∀ changes, l.meaning (changes ++ [.labelAt offset]) offset = l.meaning changes offset := by
  have hl := of_ofInstructions h
  have hnone : l.bindingAt? offset = some .atEnd → l.positionLabels[offset]? = none :=
    positionLabels_atEnd h
  refine ⟨exists_label_iff hl, fun _ more _ _ hrun => run_labelAt_made hl hrun more,
    fun id hid changes => ?node, fun hend before hbefore => ⟨?unasked, ?asked⟩,
    fun _ _ _ => meaning_earlier hl hnone, meaning_append_labelAt hl hnone⟩
  case node => rw [meaning_of_ne_atEnd hl (by rw [hid]; simp), hid]
  case unasked => rw [meaning_of_unasked hl (hnone hend) hbefore, hend]
  case asked => exact meaning_of_asked hl (hnone hend) hend hbefore

/-- An instruction that does nothing and a return. -/
def idleCode : List (Instruction Offset) := [⟨0, ⟨0x00⟩, .none⟩, ⟨1, ⟨0x2A⟩, .none⟩]

/-- The listing of them. -/
def idleListing : Listing where
  nodes := #[⟨⟨0, ⟨0x00⟩, .none⟩, some 0⟩, ⟨⟨1, ⟨0x2A⟩, .none⟩, some 1⟩]
  order := [0, 1]
  bindings := #[]
  positionLabels := ∅
  positionNodes := indexByOffset idleCode
  initialSize := 2

theorem ofInstructions_idleCode : ofInstructions idleCode 2 = .ok idleListing := rfl

theorem bindingAt?_idleListing : idleListing.bindingAt? 2 = some .atEnd := by
  simp [bindingAt?, idleListing, idleCode, indexByOffset]

/-- A label for the end that is asked for goes along to the node that is added there. -/
theorem labels_stable_appendedNode :
    idleListing.meaning [.labelAt 2, .addNode ⟨0, ⟨0x00⟩, .none⟩, .rebindEnd 2] 2 =
      some (.node 2) := by
  obtain ⟨-, -, -, hend, -⟩ := labels_stable ofInstructions_idleCode 2
  exact (hend bindingAt?_idleListing [] List.not_mem_nil).2 _

/-- Moving the end misses the label for the end that was not asked for. -/
theorem rebindEnd_misses_label :
    ofInstructions idleCode 2 = .ok idleListing ∧
      idleListing.meaning [.addNode ⟨0, ⟨0x00⟩, .none⟩, .rebindEnd 2] 2 = some .atEnd ∧
      idleListing.meaning [.labelAt 2, .addNode ⟨0, ⟨0x00⟩, .none⟩, .rebindEnd 2] 2 =
        some (.node 2) := by
  have hl := of_ofInstructions ofInstructions_idleCode
  have hnone := positionLabels_atEnd ofInstructions_idleCode bindingAt?_idleListing
  refine ⟨rfl, ?_, meaning_of_asked hl hnone bindingAt?_idleListing List.not_mem_nil _⟩
  rw [meaning_of_unasked hl hnone (by decide), bindingAt?_idleListing]

end Listing

end CilProbe
