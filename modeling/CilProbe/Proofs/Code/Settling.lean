/-
CilProbe/Proofs/Code/Settling.lean

The passes of a layout, as steps from one choice of forms to a larger one.  A pass places the
nodes as the choice says (`placed_of_place`) and adds the branches that do not reach
(`longOf_promote`).  What it adds is long in every valid choice, so the passes stay below
all of them, and they end in a valid one, which is the least (`least_of_settle`).

Every pass but the last one adds a branch, so there are at most as many as branches, and one
more to see that nothing is left to do (`settle_total`).  How many passes are allowed has no
part in what a pass does (`settle_of_le`); it only decides whether the last one comes.

Main results: `layout_least`, and in `CilProbe/Proofs/Probe/Budget.lean` what follows for the
number of passes.
-/
import CilProbe.Proofs.Code.Forms
import Mathlib.Order.Bounds.Basic

namespace CilProbe

namespace Layout

variable {l : Listing} {layout : Layout} {long long' : Array Bool} {id : NodeId}

/-! ### Choices made by a layout -/

/-- The nodes marked as long. -/
def longOf (long : Array Bool) : Finset NodeId :=
  (Finset.range long.size).filter fun id => long[id]?.getD false = true

/-- The branches that a layout makes long. -/
def longNodes (layout : Layout) : Finset NodeId := longOf layout.long

theorem mem_longOf : id ∈ longOf long ↔ long[id]?.getD false = true := by
  rw [longOf, Finset.mem_filter, Finset.mem_range, and_iff_right_iff_imp]
  intro h
  by_contra hge
  rw [Array.getElem?_eq_none (Nat.le_of_not_lt hge)] at h
  cases h

theorem mem_longNodes : id ∈ layout.longNodes ↔ layout.isLong id = true := mem_longOf

theorem decide_mem_longOf (long : Array Bool) (id : NodeId) :
    decide (id ∈ longOf long) = long[id]?.getD false := by
  rw [Bool.eq_iff_iff, decide_eq_true_iff, mem_longOf]

@[simp] theorem longOf_replicate (n : Nat) : longOf (Array.replicate n false) = ∅ := by
  ext id
  rw [mem_longOf, Array.getElem?_replicate]
  split <;> simp

theorem mem_longOf_set {id' : NodeId} (h : id < long.size) :
    id' ∈ longOf (long.setIfInBounds id true) ↔ id' = id ∨ id' ∈ longOf long := by
  rw [mem_longOf, mem_longOf, Array.getElem?_setIfInBounds]
  split
  · next heq =>
    subst heq
    simp [h]
  · next hne => simp [Ne.symm hne]

/-! ### Placing -/

/-- A layout puts every node where its choice of forms says. -/
structure Placed (l : Listing) (layout : Layout) : Prop where
  offset : ∀ id ∈ l.order, layout.offsetOf? id = some (l.start layout.longNodes id)
  outside : ∀ id ∉ l.order, layout.offsetOf? id = none
  codeSize : layout.codeSize = l.extent layout.longNodes l.order
  bounded : layout.codeSize ≤ Offset.last

/-- A fold of placements adds up the bytes of its nodes. -/
theorem position_of_foldlM {ids : List NodeId} {offsets offsets' : Array (Option Nat)}
    {position position' : Nat}
    (h : ids.foldlM (placeNode l long) (offsets, position) = .ok (offsets', position')) :
    position' = position + l.extent (longOf long) ids := by
  induction ids generalizing offsets position with
  | nil =>
    cases h
    rfl
  | cons id ids ih =>
    rw [List.foldlM_cons] at h
    obtain ⟨⟨offsets₁, position₁⟩, hstep, h⟩ := bind_eq_ok.mp h
    obtain ⟨n, hn, -, -, rfl⟩ := placeNode_eq_ok hstep
    rw [ih h, Listing.extent_cons, Listing.sizeIn_eq hn, decide_mem_longOf, Nat.add_assoc]

/-- It puts a node behind the bytes of those in front of it, the last time it comes by. -/
theorem offset_of_foldlM {front rest : List NodeId} {offsets offsets' : Array (Option Nat)}
    {position position' : Nat} (hsize : offsets.size = l.nodes.size)
    (h : (front ++ id :: rest).foldlM (placeNode l long) (offsets, position) =
      .ok (offsets', position')) (hrest : id ∉ rest) :
    offsets'[id]? = some (some (position + l.extent (longOf long) front)) := by
  rw [List.foldlM_append] at h
  obtain ⟨⟨offsets₁, position₁⟩, hfront, h⟩ := bind_eq_ok.mp h
  rw [List.foldlM_cons] at h
  obtain ⟨⟨offsets₂, position₂⟩, hstep, h⟩ := bind_eq_ok.mp h
  obtain ⟨n, hn, -, rfl, -⟩ := placeNode_eq_ok hstep
  have hsize₁ : offsets₁.size = l.nodes.size :=
    foldlM_preserves (P := fun placed => placed.1.size = l.nodes.size)
      (fun placed id placed' _ hkeep hstep => by
        obtain ⟨-, -, -, hoffsets, -⟩ := placeNode_eq_ok hstep
        rw [hoffsets, Array.size_setIfInBounds, hkeep]) hsize hfront
  have hlt : id < offsets₁.size := hsize₁ ▸ (Array.getElem?_eq_some_iff.mp hn).1
  rw [foldlM_placeNode_of_not_mem h hrest, Array.getElem?_setIfInBounds_self_of_lt hlt,
    position_of_foldlM hfront]

theorem long_of_place (h : place l long = .ok layout) : layout.long = long := by
  unfold place at h
  obtain ⟨⟨offsets, codeSize⟩, -, h⟩ := bind_eq_ok.mp h
  simp only at h
  split at h
  · cases h
  · cases h
    rfl

theorem placed_of_place (h : place l long = .ok layout) : Placed l layout := by
  have hlong : layout.longNodes = longOf long := by rw [longNodes, long_of_place h]
  unfold place at h
  obtain ⟨⟨offsets, codeSize⟩, hfold, h⟩ := bind_eq_ok.mp h
  simp only at h
  split at h
  · cases h
  next hle =>
  obtain rfl := pure_eq_ok.mp h
  refine ⟨?_, ?_, ?_, Nat.le_of_not_lt hle⟩
  · intro id hid
    obtain ⟨rest, hrest, hl⟩ := Listing.exists_rest hid
    rw [hl] at hfold
    show offsets[id]?.getD none = _
    rw [offset_of_foldlM (by simp) hfold hrest, hlong, Listing.start, Nat.zero_add]
    rfl
  · intro id hid
    show offsets[id]?.getD none = _
    rw [foldlM_placeNode_of_not_mem hfold hid, Array.getElem?_replicate]
    split <;> rfl
  · rw [hlong, ← Nat.zero_add (l.extent _ _)]
    exact position_of_foldlM hfold

/-- Nodes that exist can be placed as long as there are positions. -/
theorem exists_foldlM_placeNode (long : Array Bool) {ids : List NodeId}
    (hids : ∀ id ∈ ids, ∃ n, l.nodes[id]? = some n) (offsets : Array (Option Nat)) (position : Nat)
    (hfit : position + l.extent (longOf long) ids ≤ Offset.last) :
    ∃ placed, ids.foldlM (placeNode l long) (offsets, position) = .ok placed := by
  induction ids generalizing offsets position with
  | nil => exact ⟨_, rfl⟩
  | cons id ids ih =>
    obtain ⟨n, hn⟩ := hids id (by simp)
    rw [Listing.extent_cons, Listing.sizeIn_eq hn, decide_mem_longOf] at hfit
    obtain ⟨placed, hplaced⟩ := ih (fun id hid => hids id (List.mem_cons_of_mem _ hid))
      (offsets.setIfInBounds id (some position))
      (position + nodeSize n.instruction (long[id]?.getD false)) (by omega)
    refine ⟨placed, ?_⟩
    rw [List.foldlM_cons]
    refine bind_eq_ok.mpr ⟨_, ?_, hplaced⟩
    rw [placeNode, node_eq_ok.mpr hn]
    exact if_neg (by omega)

theorem exists_place (hl : ∀ id ∈ l.order, ∃ n, l.nodes[id]? = some n)
    (hfit : l.extent (longOf long) l.order ≤ Offset.last) :
    ∃ layout, place l long = .ok layout := by
  obtain ⟨⟨offsets, codeSize⟩, hfold⟩ := exists_foldlM_placeNode long hl
    (Array.replicate l.nodes.size none) 0 (by omega)
  have hsize := position_of_foldlM hfold
  refine ⟨⟨offsets, long, codeSize, 0⟩, ?_⟩
  unfold place
  refine bind_eq_ok.mpr ⟨_, hfold, ?_⟩
  simp only
  rw [if_neg (by omega)]
  rfl

namespace Placed

variable (h : Placed l layout)
include h

theorem resolve_eq_ok_iff {label : Label} {target : Nat} :
    layout.resolve l label = .ok target ↔
      l.positionIn? layout.longNodes (l.binding label) = some target := by
  rw [resolve_eq_ok]
  rcases l.binding label with - | id | -
  · rfl
  · by_cases hid : id ∈ l.order
    · rw [positionOf?, h.offset id hid, Listing.positionIn?, if_pos hid]
    · rw [positionOf?, h.outside id hid, Listing.positionIn?, if_neg hid]
  · rw [positionOf?, h.codeSize]
    rfl

end Placed

/-! ### One pass -/

/-- A node that was looked at is found out of reach exactly if it is a branch that was left
short and does not reach. -/
theorem Placed.outOfReach_iff (h : Placed l layout) (hid : id ∈ l.order) {out : Bool}
    (hout : outOfReach l layout id = .ok out) :
    out = true ↔ id ∈ l.branches ∧ id ∉ layout.longNodes ∧ ¬l.ReachesIn layout.longNodes id := by
  obtain ⟨n, hnode, hlook⟩ := bind_eq_ok.mp hout
  have hn := node_eq_ok.mp hnode
  rw [Listing.mem_branches, Listing.isBranch_iff hn, mem_longNodes, Bool.not_eq_true]
  by_cases hbranch : n.instruction.opcode.isBranch = true ∧ layout.isLong id = false
  · obtain ⟨label, target, hlabel, htarget, rfl⟩ :=
      outOfReach_eq_ok hn hbranch.1 hbranch.2 hout
    rw [h.resolve_eq_ok_iff] at htarget
    rw [h.offset id hid, Option.getD_some, Bool.not_eq_true', ← Bool.not_eq_true, fits_8_iff]
    have hreach : l.ReachesIn layout.longNodes id ↔
        ShortReach ((target : Int) - (l.start layout.longNodes id + 2)) := by
      constructor
      · rintro ⟨n', label', target', hn', hlabel', htarget', hreach⟩
        obtain rfl := Option.some.inj (hn.symm.trans hn')
        obtain rfl := Operand.target.inj (hlabel.symm.trans hlabel')
        obtain rfl := Option.some.inj (htarget.symm.trans htarget')
        exact hreach
      · exact fun hreach => ⟨n, label, target, hn, hlabel, htarget, hreach⟩
    rw [hreach]
    exact ⟨fun hfar => ⟨⟨hid, hbranch.1⟩, hbranch.2, hfar⟩, fun hall => hall.2.2⟩
  · -- other nodes are not looked at
    rw [if_pos (by
      rcases hb : n.instruction.opcode.isBranch with - | -
      · rfl
      · simpa [hb] using hbranch)] at hlook
    obtain rfl := pure_eq_ok.mp hlook
    exact iff_of_false Bool.false_ne_true fun hall => hbranch ⟨hall.1.2, hall.2.1⟩

/-- In code whose labels resolve every node can be looked at. -/
theorem Placed.exists_outOfReach (h : Placed l layout) (hl : l.Resolves) (hid : id ∈ l.order) :
    ∃ out, outOfReach l layout id = .ok out := by
  obtain ⟨n, hn⟩ := hl.exists_node id hid
  unfold outOfReach
  rw [node_eq_ok.mpr hn]
  by_cases hskip : (!n.instruction.opcode.isBranch || layout.isLong id) = true
  · exact ⟨false, if_pos hskip⟩
  · have hbranch : n.instruction.opcode.isBranch = true := by
      simp only [Bool.or_eq_true, Bool.not_eq_true', not_or, Bool.not_eq_false] at hskip
      exact hskip.1
    obtain ⟨n', label, target, hn', hlabel, htarget⟩ := hl.exists_position
      (Listing.mem_branches.mpr ⟨hid, (Listing.isBranch_iff hn).mpr hbranch⟩) layout.longNodes
    obtain rfl := Option.some.inj (hn.symm.trans hn')
    refine ⟨!fits 8 ((target : Int) - ((layout.offsetOf? id).getD 0 + 2)), (if_neg hskip).trans ?_⟩
    rw [branchLabel, hlabel]
    show (layout.resolve l label >>= _) = _
    rw [h.resolve_eq_ok_iff.mpr htarget]
    rfl

/-- A fold over some nodes looks at all of them and makes long what is out of reach. -/
theorem longOf_of_foldlM {ids : List NodeId} {grew grew' : Bool} (hsize : long.size = l.nodes.size)
    (h : ids.foldlM (fun ((long, grew) : Array Bool × Bool) id => do
      if ← outOfReach l layout id then return (long.setIfInBounds id true, true)
      else return (long, grew)) (long, grew) = .ok (long', grew')) :
    long'.size = l.nodes.size ∧ (∀ id ∈ ids, ∃ out, outOfReach l layout id = .ok out) ∧
      (∀ id, id ∈ longOf long' ↔
        id ∈ longOf long ∨ id ∈ ids ∧ outOfReach l layout id = .ok true) ∧
      (grew' = true ↔ grew = true ∨ ∃ id ∈ ids, outOfReach l layout id = .ok true) := by
  induction ids generalizing long grew with
  | nil =>
    cases h
    simp [hsize]
  | cons id ids ih =>
    rw [List.foldlM_cons] at h
    obtain ⟨⟨long₁, grew₁⟩, hstep, h⟩ := bind_eq_ok.mp h
    obtain ⟨out, hout, hstep⟩ := bind_eq_ok.mp hstep
    rcases out with - | -
    · -- in reach, so nothing changes
      cases hstep
      obtain ⟨hsize', hall, hmem, hgrew⟩ := ih hsize h
      refine ⟨hsize', List.forall_mem_cons.mpr ⟨⟨_, hout⟩, hall⟩, fun id' => ?_, ?_⟩
      · rw [hmem, List.mem_cons]
        refine or_congr_right (and_congr_left fun hout' => (or_iff_right ?_).symm)
        rintro rfl
        cases hout.symm.trans hout'
      · rw [hgrew, List.exists_mem_cons_iff, hout]
        simp
    · -- out of reach, so the node is made long, which it may have been before
      cases hstep
      obtain ⟨n, hn, -⟩ := bind_eq_ok.mp hout
      have hlt : id < long.size :=
        hsize ▸ (Array.getElem?_eq_some_iff.mp (node_eq_ok.mp hn)).1
      obtain ⟨hsize', hall, hmem, hgrew⟩ := ih (by rw [Array.size_setIfInBounds, hsize]) h
      refine ⟨hsize', List.forall_mem_cons.mpr ⟨⟨_, hout⟩, hall⟩, fun id' => ?_, ?_⟩
      · rw [hmem, mem_longOf_set hlt, List.mem_cons]
        constructor
        · rintro ((rfl | hold) | ⟨hin, hout'⟩)
          · exact .inr ⟨.inl rfl, hout⟩
          · exact .inl hold
          · exact .inr ⟨.inr hin, hout'⟩
        · rintro (hold | ⟨rfl | hin, hout'⟩)
          · exact .inl (.inr hold)
          · exact .inl (.inl rfl)
          · exact .inr ⟨hin, hout'⟩
      · rw [hgrew, List.exists_mem_cons_iff, hout]
        simp

/-! ### Choices on the way -/

/-- The nodes marked as long are branches, and long in every valid choice. -/
structure Needed (l : Listing) (long : Array Bool) : Prop where
  size : long.size = l.nodes.size
  branches : longOf long ⊆ l.branches
  below : ∀ S, l.Valid S → longOf long ⊆ S

theorem needed_none (l : Listing) : Needed l (Array.replicate l.nodes.size false) where
  size := Array.size_replicate
  branches := by simp
  below S _ := by simp

section Pass

variable {placed : Layout} {grew : Bool} (hlong : Needed l long)
  (hplace : place l long = .ok placed)
  (hpromote : promote l placed = .ok (long', grew))
include hlong hplace hpromote

/-- A pass adds the branches that do not reach, and says whether there were any. -/
theorem longOf_promote :
    (∀ id, id ∈ longOf long' ↔ id ∈ longOf long ∨
      id ∈ l.branches ∧ id ∉ longOf long ∧ ¬l.ReachesIn (longOf long) id) ∧
    (grew = true ↔ ∃ id ∈ l.branches, id ∉ longOf long ∧ ¬l.ReachesIn (longOf long) id) := by
  have hplaced := placed_of_place hplace
  have hsame := long_of_place hplace
  have hnodes : placed.longNodes = longOf long := by rw [longNodes, hsame]
  obtain ⟨-, hall, hmem, hgrew⟩ := longOf_of_foldlM (hsame ▸ hlong.size) hpromote
  -- all nodes were looked at, so those out of reach are the branches that do not reach
  have hout : ∀ id, id ∈ l.order ∧ outOfReach l placed id = .ok true ↔
      id ∈ l.branches ∧ id ∉ longOf long ∧ ¬l.ReachesIn (longOf long) id := by
    intro id
    rw [← hnodes]
    constructor
    · rintro ⟨hid, hout⟩
      exact (hplaced.outOfReach_iff hid hout).mp rfl
    · intro hid
      have horder := (Listing.mem_branches.mp hid.1).1
      obtain ⟨out, hout⟩ := hall id horder
      rw [← (hplaced.outOfReach_iff horder hout).mpr hid]
      exact ⟨horder, hout⟩
  constructor
  · intro id
    rw [hmem, hsame, hout]
  · rw [hgrew, or_iff_right Bool.false_ne_true]
    exact exists_congr hout

theorem Needed.promote : Needed l long' := by
  obtain ⟨hmem, -⟩ := longOf_promote hlong hplace hpromote
  refine ⟨?_, fun id hid => ?_, fun S hS id hid => ?_⟩
  · exact (longOf_of_foldlM (long_of_place hplace ▸ hlong.size) hpromote).1
  · rcases (hmem id).mp hid with hold | ⟨hbranch, -, -⟩
    · exact hlong.branches hold
    · exact hbranch
  · rcases (hmem id).mp hid with hold | ⟨hbranch, -, hreach⟩
    · exact hlong.below S hS hold
    · exact hS.mem_of_not_reaches (hlong.below S hS) hbranch hreach

/-- A pass that adds something leaves fewer branches short. -/
theorem card_promote (hgrew : grew = true) :
    (l.branches \ longOf long').card < (l.branches \ longOf long).card := by
  obtain ⟨hmem, hiff⟩ := longOf_promote hlong hplace hpromote
  obtain ⟨id, hbranch, hshort, hreach⟩ := hiff.mp hgrew
  refine Finset.card_lt_card ⟨Finset.sdiff_subset_sdiff subset_rfl fun id hid => ?_, fun hsub => ?_⟩
  · exact (hmem id).mpr (.inl hid)
  · have hid := Finset.mem_sdiff.mp (hsub (Finset.mem_sdiff.mpr ⟨hbranch, hshort⟩))
    exact hid.2 ((hmem id).mpr (.inr ⟨hbranch, hshort, hreach⟩))

/-- A pass that adds nothing has found a valid choice. -/
theorem valid_of_settled (hgrew : grew = false) : l.Valid (longOf long) := by
  obtain ⟨-, hiff⟩ := longOf_promote hlong hplace hpromote
  refine ⟨hlong.branches, fun id hid hshort => ?_⟩
  by_contra hreach
  exact absurd (hiff.mpr ⟨id, hid, hshort, hreach⟩) (by simp [hgrew])

end Pass

/-! ### All passes -/

variable {limit budget passes : Nat}

/-- A pass either ends the layout or leaves the rest to the passes behind it. -/
theorem settle_succ_eq_ok :
    settle l limit (budget + 1) passes long = .ok layout ↔
      ∃ placed long' grew, place l long = .ok placed ∧ promote l placed = .ok (long', grew) ∧
        (if grew = true then settle l limit budget (passes + 1) long'
          else .ok { placed with passes := passes + 1 }) = .ok layout := by
  constructor
  · intro h
    obtain ⟨placed, hplace, h⟩ := bind_eq_ok.mp h
    obtain ⟨⟨long', grew⟩, hpromote, h⟩ := bind_eq_ok.mp h
    exact ⟨placed, long', grew, hplace, hpromote, h⟩
  · rintro ⟨placed, long', grew, hplace, hpromote, h⟩
    exact bind_eq_ok.mpr ⟨placed, hplace, bind_eq_ok.mpr ⟨(long', grew), hpromote, h⟩⟩

/-- The passes end in the least valid choice. -/
theorem least_of_settle (hlong : Needed l long)
    (h : settle l limit budget passes long = .ok layout) :
    IsLeast {S | l.Valid S} layout.longNodes ∧ Placed l layout := by
  induction budget generalizing passes long with
  | zero => cases h
  | succ budget ih =>
    obtain ⟨placed, long', grew, hplace, hpromote, h⟩ := settle_succ_eq_ok.mp h
    rcases grew with - | -
    · -- nothing was added: what is long is valid, and below every valid choice
      obtain rfl := Except.ok.inj h
      have hnodes : placed.longNodes = longOf long := by rw [longNodes, long_of_place hplace]
      have hplaced := placed_of_place hplace
      refine ⟨?_, hplaced.offset, hplaced.outside, hplaced.codeSize, hplaced.bounded⟩
      show IsLeast _ placed.longNodes
      rw [hnodes]
      exact ⟨valid_of_settled hlong hplace hpromote rfl, hlong.below⟩
    · exact ih (hlong.promote hplace hpromote) h

/-- A layout is found with any number of passes from the one that it took, whatever the limit
that is reported when they run out. -/
theorem settle_of_le (h : settle l limit budget passes long = .ok layout) :
    passes < layout.passes ∧ layout.passes ≤ passes + budget ∧
      ∀ {limit' budget'}, layout.passes ≤ passes + budget' →
        settle l limit' budget' passes long = .ok layout := by
  induction budget generalizing passes long with
  | zero => cases h
  | succ budget ih =>
    obtain ⟨placed, long', grew, hplace, hpromote, h⟩ := settle_succ_eq_ok.mp h
    rcases grew with - | -
    · obtain rfl := Except.ok.inj h
      refine ⟨Nat.lt_succ_self _, Nat.add_le_add_left (Nat.le_add_left 1 budget) passes, ?_⟩
      intro limit' budget' hle
      obtain ⟨budget', rfl⟩ : ∃ k, budget' = k + 1 := ⟨budget' - 1, by simp only at hle; omega⟩
      exact settle_succ_eq_ok.mpr ⟨placed, long', false, hplace, hpromote, rfl⟩
    · obtain ⟨hlt, hle, hsame⟩ := ih h
      refine ⟨by omega, by omega, ?_⟩
      intro limit' budget' hle'
      obtain ⟨budget', rfl⟩ : ∃ k, budget' = k + 1 := ⟨budget' - 1, by omega⟩
      exact settle_succ_eq_ok.mpr
        ⟨placed, long', true, hplace, hpromote, hsame (by omega)⟩

/-- In code whose labels resolve and which fits, passes find a layout or run out, and they do
not run out while there are more of them than short branches. -/
theorem settle_total (limit budget passes : Nat) (hl : l.Resolves) (hfits : l.Fits)
    (hlong : Needed l long) :
    (∃ layout, settle l limit budget passes long = .ok layout) ∨
      settle l limit budget passes long = .error (.nonConvergentLayout limit) ∧
        budget ≤ (l.branches \ longOf long).card := by
  obtain ⟨S, hS, hfit⟩ := hfits
  induction budget generalizing passes long with
  | zero => exact .inr ⟨rfl, Nat.zero_le _⟩
  | succ budget ih =>
    -- what is long so far is long in `S`, where the code fits
    obtain ⟨placed, hplace⟩ := exists_place hl.exists_node
      (Nat.le_trans (l.extent_mono (hlong.below S hS) l.order) hfit)
    obtain ⟨long', grew, hpromote⟩ : ∃ long' grew, promote l placed = .ok (long', grew) := by
      rcases hpromote : promote l placed with e | ⟨long', grew⟩
      · -- a pass can only fail at a node that cannot be looked at
        obtain ⟨id, hid, state, hstep⟩ := exists_of_foldlM_eq_error hpromote
        obtain ⟨out, hout⟩ := (placed_of_place hplace).exists_outOfReach hl hid
        rw [hout] at hstep
        cases out <;> cases hstep
      · exact ⟨long', grew, rfl⟩
    rcases grew with - | -
    · exact .inl ⟨_, settle_succ_eq_ok.mpr ⟨placed, long', false, hplace, hpromote, rfl⟩⟩
    · rcases ih (passes + 1) (hlong.promote hplace hpromote) with
        ⟨layout, hlayout⟩ | ⟨herror, hle⟩
      · exact .inl ⟨layout, settle_succ_eq_ok.mpr ⟨placed, long', true, hplace, hpromote, hlayout⟩⟩
      · have hcard := card_promote hlong hplace hpromote rfl
        refine .inr ⟨?_, by omega⟩
        unfold settle
        rw [hplace]
        show (promote l placed >>= _) = _
        rw [hpromote]
        exact herror

/-! ### The layout of a listing -/

/-- A layout found with some number of passes is found with every number from the one it took,
and with no smaller one. -/
theorem of_eq_ok_iff (h : Layout.of l limit = .ok layout) {limit' : Nat} {layout' : Layout} :
    Layout.of l limit' = .ok layout' ↔ layout' = layout ∧ layout.passes ≤ limit' := by
  obtain ⟨-, -, hsame⟩ := settle_of_le h
  constructor
  · intro h'
    obtain ⟨-, hle', hsame'⟩ := settle_of_le h'
    -- the larger number of passes finds both
    have hboth : Layout.of l (max layout.passes layout'.passes) = .ok layout :=
      hsame (by omega)
    have hboth' : Layout.of l (max layout.passes layout'.passes) = .ok layout' :=
      hsame' (by omega)
    obtain rfl := Except.ok.inj (hboth'.symm.trans hboth)
    exact ⟨rfl, by omega⟩
  · rintro ⟨rfl, hle⟩
    exact hsame (by omega)

/-- Code whose labels resolve and which fits has a layout, found with as many passes as it has
branches and one more. -/
theorem exists_of (hl : l.Resolves) (hfits : l.Fits) :
    ∃ layout, layout.passes ≤ l.branches.card + 1 ∧ ∀ limit,
      Layout.of l limit =
        if layout.passes ≤ limit then .ok layout else .error (.nonConvergentLayout limit) := by
  have htotal := fun limit => settle_total limit limit 0 hl hfits (needed_none l)
  obtain ⟨layout, hlayout⟩ : ∃ layout, Layout.of l (l.branches.card + 1) = .ok layout := by
    rcases htotal (l.branches.card + 1) with h | ⟨-, hle⟩
    · exact h
    · rw [longOf_replicate, Finset.sdiff_empty] at hle
      omega
  refine ⟨layout, ((of_eq_ok_iff hlayout).mp hlayout).2, fun limit => ?_⟩
  split
  · next hle => exact (of_eq_ok_iff hlayout).mpr ⟨rfl, hle⟩
  · next hlt =>
    rcases htotal limit with ⟨layout', h⟩ | ⟨h, -⟩
    · exact absurd ((of_eq_ok_iff hlayout).mp h).2 hlt
    · exact h

/-- What has a layout has labels that resolve, and it fits. -/
theorem resolves_of (h : Layout.of l limit = .ok layout) : l.Resolves ∧ l.Fits := by
  obtain ⟨hleast, hplaced⟩ := least_of_settle (needed_none l) h
  constructor
  · -- the first pass looks at all branches, as none of them is long yet
    rcases limit with - | limit
    · cases h
    obtain ⟨placed, long', grew, hplace, hpromote, -⟩ := settle_succ_eq_ok.mp h
    have hnone := long_of_place hplace
    obtain ⟨-, hall, -, -⟩ := longOf_of_foldlM (hnone ▸ Array.size_replicate) hpromote
    refine ⟨fun id hid => ?_, fun id hid n hn hbranch => ?_⟩
    · obtain ⟨out, hout⟩ := hall id hid
      obtain ⟨n, hn, -⟩ := bind_eq_ok.mp hout
      exact ⟨n, node_eq_ok.mp hn⟩
    · obtain ⟨out, hout⟩ := hall id hid
      have hshort : placed.isLong id = false := by
        rw [← Bool.not_eq_true, ← mem_longNodes, longNodes, hnone, longOf_replicate]
        exact Finset.notMem_empty id
      obtain ⟨label, target, hlabel, htarget, -⟩ := outOfReach_eq_ok hn hbranch hshort hout
      rw [(placed_of_place hplace).resolve_eq_ok_iff] at htarget
      exact ⟨label, hlabel, Listing.placed_of_positionIn? htarget⟩
  · exact ⟨layout.longNodes, hleast.1, hplaced.codeSize ▸ hplaced.bounded⟩

/-- A layout is the least there is.  The branches that it makes long are a valid choice, and
long in every valid choice; its positions are what this choice makes of the sizes; and no valid
choice has smaller code. -/
theorem layout_least (h : Layout.of l limit = .ok layout) :
    IsLeast {S | l.Valid S} layout.longNodes ∧
      (∀ front id rest, l.order = front ++ id :: rest → id ∉ rest →
        layout.offsetOf? id = some (l.extent layout.longNodes front)) ∧
      (∀ id ∉ l.order, layout.offsetOf? id = none) ∧
      layout.codeSize = l.extent layout.longNodes l.order ∧
      IsLeast ((fun S => l.extent S l.order) '' {S | l.Valid S}) layout.codeSize := by
  obtain ⟨hleast, hplaced⟩ := least_of_settle (needed_none l) h
  refine ⟨hleast, fun front id rest hl hrest => ?_, hplaced.outside, hplaced.codeSize, ?_, ?_⟩
  · rw [hplaced.offset id (by simp [hl]), Listing.start_append hl hrest]
  · exact ⟨layout.longNodes, hleast.1, hplaced.codeSize.symm⟩
  · rintro _ ⟨S, hS, rfl⟩
    rw [hplaced.codeSize]
    exact l.extent_mono (hleast.2 hS) l.order

end Layout

/-! ### Branches that push each other out of reach -/

/-- A branch over another branch and a jump table, which it reaches while the other one is
short; the other one has two jump tables to pass, and goes to the return. -/
def cascadeListing : Listing where
  nodes := #[⟨.new ⟨0x38⟩ (.target 0), none⟩, ⟨.new ⟨0x38⟩ (.target 1), none⟩,
    ⟨.new ⟨0x45⟩ (.switch (List.replicate 30 1)), none⟩,
    ⟨.new ⟨0x45⟩ (.switch (List.replicate 30 1)), none⟩, ⟨.new ⟨0x2A⟩ .none, none⟩]
  order := [0, 1, 2, 3, 4]
  bindings := #[.node 3, .node 4]
  positionLabels := ∅
  positionNodes := ∅
  initialSize := 0

/-- Where its nodes go. -/
def cascadeLayout : Layout where
  offsets := #[some 0, some 5, some 10, some 135, some 260]
  long := #[true, true, false, false, false]
  codeSize := 261
  passes := 3

/-- Both branches have to be long. -/
theorem layout_least_cascadeListing :
    Layout.of cascadeListing 32 = .ok cascadeLayout ∧
      IsLeast {S | cascadeListing.Valid S} {0, 1} ∧
      IsLeast ((fun S => cascadeListing.extent S cascadeListing.order) ''
        {S | cascadeListing.Valid S}) 261 := by
  have hlayout : Layout.of cascadeListing 32 = .ok cascadeLayout := by decide +kernel
  obtain ⟨hleast, -, -, -, hsize⟩ := Layout.layout_least hlayout
  have hlong : cascadeLayout.longNodes = {0, 1} := by decide
  rw [hlong] at hleast
  exact ⟨hlayout, hleast, hsize⟩

end CilProbe
