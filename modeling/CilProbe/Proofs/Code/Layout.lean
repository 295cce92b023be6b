/-
CilProbe/Proofs/Code/Layout.lean

What a layout says about a listing.  Passes only decide which branches are long;
the layout that comes out places the nodes one behind the other in the forms it
chose (`stands_of`), all within the positions there are.

`Layout.place` is a fold over the order of the code.  A node occurs once in it, so
what one step writes down no later step overwrites; that is what carries `Stands`
through the fold.
-/
import CilProbe.Code.Layout
import CilProbe.Proofs.Outcome

namespace CilProbe

namespace Layout

variable {l : Listing} {layout : Layout}

/-! ### Placing -/

/-- The nodes stand one behind the other, the first one at `position` and nothing
behind the last. -/
def Stands (l : Listing) (layout : Layout) : Nat → List NodeId → Prop
  | position, [] => layout.codeSize = position
  | position, id :: ids =>
    layout.offsetOf? id = some position ∧
      ∃ n, l.nodes[id]? = some n ∧
        Stands l layout (position + nodeSize n.instruction (layout.isLong id)) ids

/-- No position lies behind the code, and the code ends within the positions
there are. -/
def Bounded (layout : Layout) : Prop :=
  layout.codeSize ≤ Offset.last ∧
    ∀ id position, layout.offsetOf? id = some position → position ≤ Offset.last

theorem node_eq_ok {id : NodeId} {n : Node} : l.node id = .ok n ↔ l.nodes[id]? = some n := by
  unfold Listing.node
  rcases l.nodes[id]? with - | n'
  · simp
  · simp

theorem placeNode_eq_ok {long : Array Bool} {offsets offsets' : Array (Option Nat)}
    {position position' : Nat} {id : NodeId}
    (h : placeNode l long (offsets, position) id = .ok (offsets', position')) :
    ∃ n, l.nodes[id]? = some n ∧ position ≤ Offset.last ∧
      offsets' = offsets.setIfInBounds id (some position) ∧
      position' = position + nodeSize n.instruction (long[id]?.getD false) := by
  unfold placeNode at h
  rcases e : l.node id with err | n
  · simp only [e] at h
    cases h
  · simp only [e] at h
    split at h
    · cases h
    · next hle =>
      cases h
      exact ⟨n, node_eq_ok.mp e, Nat.le_of_not_lt hle, rfl, rfl⟩

/-- A fold of placements leaves alone what it does not come by. -/
theorem foldlM_placeNode_of_not_mem {long : Array Bool} {ids : List NodeId}
    {offsets offsets' : Array (Option Nat)} {position position' : Nat} {id : NodeId}
    (h : ids.foldlM (placeNode l long) (offsets, position) = .ok (offsets', position'))
    (hid : id ∉ ids) : offsets'[id]? = offsets[id]? := by
  refine foldlM_preserves (P := fun placed => placed.1[id]? = offsets[id]?) ?_ rfl h
  rintro ⟨offsets₁, position₁⟩ id' ⟨offsets₂, position₂⟩ hmem hkeep hstep
  obtain ⟨n, -, -, rfl, -⟩ := placeNode_eq_ok hstep
  have hne : id' ≠ id := by
    rintro rfl
    exact hid hmem
  rw [← hkeep]
  exact Array.getElem?_setIfInBounds_ne hne

/-- A fold of placements places its nodes one behind the other. -/
theorem stands_of_foldlM {long : Array Bool} {ids : List NodeId} (hids : ids.Nodup)
    {offsets offsets' : Array (Option Nat)} {position position' : Nat}
    (hsize : offsets.size = l.nodes.size)
    (h : ids.foldlM (placeNode l long) (offsets, position) = .ok (offsets', position')) :
    Stands l ⟨offsets', long, position', 0⟩ position ids := by
  induction ids generalizing offsets position with
  | nil =>
    cases h
    rfl
  | cons id ids ih =>
    rw [List.foldlM_cons] at h
    obtain ⟨⟨offsets₁, position₁⟩, hstep, h⟩ := bind_eq_ok.mp h
    obtain ⟨n, hn, -, rfl, rfl⟩ := placeNode_eq_ok hstep
    obtain ⟨hid, hids⟩ := List.nodup_cons.mp hids
    have hlt : id < offsets.size := by
      rw [hsize]
      exact (Array.getElem?_eq_some_iff.mp hn).1
    refine ⟨?_, n, hn, ih hids ?_ h⟩
    · show offsets'[id]?.getD none = some position
      rw [foldlM_placeNode_of_not_mem h hid, Array.getElem?_setIfInBounds_self_of_lt hlt]
      rfl
    · rw [Array.size_setIfInBounds, hsize]

/-- Every position written down by a fold of placements is one there is. -/
theorem bounded_of_foldlM {long : Array Bool} {ids : List NodeId}
    {offsets offsets' : Array (Option Nat)} {position position' : Nat}
    (hb : ∀ (id : NodeId) p, offsets[id]?.getD none = some p → p ≤ Offset.last)
    (h : ids.foldlM (placeNode l long) (offsets, position) = .ok (offsets', position')) :
    ∀ (id : NodeId) p, offsets'[id]?.getD none = some p → p ≤ Offset.last := by
  refine foldlM_preserves
    (P := fun placed => ∀ (id : NodeId) p, placed.1[id]?.getD none = some p → p ≤ Offset.last)
    ?_ hb h
  rintro ⟨offsets₁, position₁⟩ id ⟨offsets₂, position₂⟩ - hkeep hstep id' p hp
  obtain ⟨n, -, hle, rfl, -⟩ := placeNode_eq_ok hstep
  simp only [Array.getElem?_setIfInBounds] at hp
  split at hp
  · split at hp
    · cases hp
      exact hle
    · cases hp
  · exact hkeep id' p hp

/-! ### Whole layouts -/

theorem stands_of_place {long : Array Bool} (hids : l.order.Nodup)
    (h : place l long = .ok layout) :
    layout.long = long ∧ Stands l layout 0 l.order ∧ Bounded layout := by
  unfold place at h
  obtain ⟨⟨offsets, codeSize⟩, hfold, h⟩ := bind_eq_ok.mp h
  simp only at h
  split at h
  · obtain ⟨_, hthrow, _⟩ := bind_eq_ok.mp h
    cases hthrow
  · next hsize =>
    obtain rfl := pure_eq_ok.mp h
    refine ⟨rfl, stands_of_foldlM hids (by simp) hfold, Nat.le_of_not_lt hsize, ?_⟩
    refine bounded_of_foldlM ?_ hfold
    intro id p hp
    simp only [Array.getElem?_replicate] at hp
    split at hp <;> cases hp

/-- Passes end with a placement. -/
theorem place_of_settle {limit budget passes : Nat} {long : Array Bool}
    (h : settle l limit budget passes long = .ok layout) :
    ∃ placed, place l placed.long = .ok placed ∧ layout = { placed with passes := layout.passes } ∧
      layout.passes ≤ passes + budget := by
  induction budget generalizing passes long with
  | zero => cases h
  | succ budget ih =>
    obtain ⟨placed, hplace, h⟩ := bind_eq_ok.mp h
    obtain ⟨⟨long', grew⟩, -, h⟩ := bind_eq_ok.mp h
    rcases grew with - | -
    · obtain rfl := pure_eq_ok.mp h
      have hlong : placed.long = long := by
        unfold place at hplace
        obtain ⟨⟨offsets, codeSize⟩, -, hplace⟩ := bind_eq_ok.mp hplace
        simp only at hplace
        split at hplace
        · cases hplace
        · cases hplace
          rfl
      exact ⟨placed, hlong ▸ hplace, rfl, by show passes + 1 ≤ _; omega⟩
    · obtain ⟨placed', hplace', hlayout, hle⟩ := ih h
      exact ⟨placed', hplace', hlayout, by omega⟩

theorem stands_congr {layout' : Layout} {position : Nat} {ids : List NodeId}
    (h : Stands l layout position ids) (hoffset : layout'.offsets = layout.offsets)
    (hlong : layout'.long = layout.long) (hsize : layout'.codeSize = layout.codeSize) :
    Stands l layout' position ids := by
  have hof : ∀ id, layout'.offsetOf? id = layout.offsetOf? id := fun id => by
    rw [offsetOf?, offsetOf?, hoffset]
  have his : ∀ id, layout'.isLong id = layout.isLong id := fun id => by
    rw [isLong, isLong, hlong]
  induction ids generalizing position with
  | nil => exact hsize.trans h
  | cons id ids ih =>
    obtain ⟨hid, n, hn, hrest⟩ := h
    exact ⟨(hof id).trans hid, n, hn, by rw [his]; exact ih hrest⟩

/-- The nodes of a listing stand where its layout says. -/
theorem stands_of {limit : Nat} (hids : l.order.Nodup) (h : Layout.of l limit = .ok layout) :
    Stands l layout 0 l.order ∧ Bounded layout := by
  obtain ⟨placed, hplace, hlayout, -⟩ := place_of_settle h
  obtain ⟨-, hstands, hbounded⟩ := stands_of_place hids hplace
  rw [hlayout]
  exact ⟨stands_congr hstands rfl rfl rfl, hbounded⟩

/-! ### Reach -/

/-- Looking at the branches of some nodes and finding none to make long means that each
of them reaches.  Once a branch has been made long, that is not forgotten. -/
theorem outOfReach_of_foldlM {ids : List NodeId} {long long' : Array Bool} {grew : Bool}
    (h : ids.foldlM (fun ((long, grew) : Array Bool × Bool) id => do
      if ← outOfReach l layout id then return (long.setIfInBounds id true, true)
      else return (long, grew)) (long, grew) = .ok (long', false)) :
    grew = false ∧ ∀ id ∈ ids, outOfReach l layout id = .ok false := by
  induction ids generalizing long grew with
  | nil =>
    cases h
    exact ⟨rfl, by simp⟩
  | cons id ids ih =>
    rw [List.foldlM_cons] at h
    obtain ⟨⟨long₁, grew₁⟩, hstep, h⟩ := bind_eq_ok.mp h
    obtain ⟨rfl, hids⟩ := ih h
    obtain ⟨out, hout, hstep⟩ := bind_eq_ok.mp hstep
    rcases out with - | -
    · cases hstep
      exact ⟨rfl, List.forall_mem_cons.mpr ⟨hout, hids⟩⟩
    · cases hstep

/-- Passes end when every short branch reaches. -/
theorem outOfReach_of_settle {limit budget passes : Nat} {long : Array Bool}
    (h : settle l limit budget passes long = .ok layout) :
    ∀ id ∈ l.order, outOfReach l layout id = .ok false := by
  induction budget generalizing passes long with
  | zero => cases h
  | succ budget ih =>
    obtain ⟨placed, -, h⟩ := bind_eq_ok.mp h
    obtain ⟨⟨long', grew⟩, hpromote, h⟩ := bind_eq_ok.mp h
    rcases grew with - | -
    · -- the number of passes has no part in how far a branch reaches
      obtain rfl := pure_eq_ok.mp h
      exact (outOfReach_of_foldlM hpromote).2
    · exact ih h

/-- Looking at a branch that was left short means to measure the way to its target. -/
theorem outOfReach_eq_ok {id : NodeId} {n : Node} (hn : l.nodes[id]? = some n)
    (hbranch : n.instruction.opcode.isBranch) (hshort : layout.isLong id = false) {out : Bool}
    (h : outOfReach l layout id = .ok out) :
    ∃ label target, n.instruction.operand = .target label ∧
      layout.resolve l label = .ok target ∧
      out = !fits 8 ((target : Int) - ((layout.offsetOf? id).getD 0 + 2 : Int)) := by
  unfold outOfReach at h
  obtain ⟨n', hn', h⟩ := bind_eq_ok.mp h
  obtain rfl : n = n' := Option.some.inj (hn.symm.trans (node_eq_ok.mp hn'))
  rw [if_neg (by simp [hbranch, hshort])] at h
  obtain ⟨label, hlabel, h⟩ := bind_eq_ok.mp h
  obtain ⟨target, htarget, h⟩ := bind_eq_ok.mp h
  refine ⟨label, target, ?_, htarget, (pure_eq_ok.mp h).symm⟩
  unfold branchLabel at hlabel
  split at hlabel
  · next e =>
    cases hlabel
    exact e
  · cases hlabel

/-- A branch that is not out of reach is long, or it reaches. -/
theorem outOfReach_eq_false {id : NodeId} {n : Node} (hn : l.nodes[id]? = some n)
    (hbranch : n.instruction.opcode.isBranch) (hshort : layout.isLong id = false)
    (h : outOfReach l layout id = .ok false) :
    ∃ label target, n.instruction.operand = .target label ∧
      layout.resolve l label = .ok target ∧
      fits 8 ((target : Int) - ((layout.offsetOf? id).getD 0 + 2 : Int)) = true := by
  obtain ⟨label, target, hlabel, htarget, hout⟩ := outOfReach_eq_ok hn hbranch hshort h
  exact ⟨label, target, hlabel, htarget, by simpa using hout⟩

/-! ### What follows from standing -/

/-- Nodes that stand exist, and have positions. -/
theorem exists_of_stands {position : Nat} {ids : List NodeId} (h : Stands l layout position ids) :
    ∀ id ∈ ids, (∃ n, l.nodes[id]? = some n) ∧ ∃ start, layout.offsetOf? id = some start := by
  induction ids generalizing position with
  | nil => simp
  | cons id ids ih =>
    obtain ⟨hid, n, hn, hrest⟩ := h
    exact List.forall_mem_cons.mpr ⟨⟨⟨n, hn⟩, position, hid⟩, ih hrest⟩

theorem position_le_codeSize {position : Nat} {ids : List NodeId}
    (h : Stands l layout position ids) : position ≤ layout.codeSize := by
  induction ids generalizing position with
  | nil => exact Nat.le_of_eq h.symm
  | cons id ids ih =>
    obtain ⟨-, n, -, hrest⟩ := h
    exact Nat.le_trans (Nat.le_add_right _ _) (ih hrest)

end Layout

end CilProbe
