/-
CilProbe/Proofs/Code/Agreement.lean

Writing and reading agree.  A listing whose nodes and labels are in order is
written as bytes that decode to one instruction for each node, where the layout
put the node and in the form it chose, with labels replaced by what they resolve
to; and nothing but a displacement beyond 32 bits keeps it from being written
(`assemble_agrees`).

The passes of a layout end when every short branch reaches, so a short branch is
never what fails: that is `shortReach_of_displaces`, the one fact here that is
about how the layout was found and not about where it puts things.
-/
import CilProbe.Proofs.Code.Assemble

namespace CilProbe

/-! ### Listings in order -/

/-- The code of a listing can be written, but for how far its labels are: no node
occurs in it twice, each has a known code with an operand of the kind that the code
announces, and each label in it stands for a node of the code or for its end. -/
structure Listing.Writable (l : Listing) : Prop where
  nodup : l.order.Nodup
  known : l.KnownIn l.order
  bound : ∀ id ∈ l.order, ∀ n, l.nodes[id]? = some n →
    ∀ label ∈ n.instruction.operand.targets,
      l.binding label = .atEnd ∨ ∃ id' ∈ l.order, l.binding label = .node id'

namespace Layout

/-- It is `d` from behind a node to where one of its labels stands. -/
def Displaces (l : Listing) (layout : Layout) (id : NodeId) (d : Int) : Prop :=
  ∃ n label start target, l.nodes[id]? = some n ∧ label ∈ n.instruction.operand.targets ∧
    layout.offsetOf? id = some start ∧ layout.resolve l label = .ok target ∧
    d = (target : Int) - (start + nodeSize n.instruction (layout.isLong id) : Nat)

/-- The instruction is what the layout makes of a node: it stands where the node does,
a branch is in the form chosen for it, and the targets are what the labels resolve
to. -/
structure Places (l : Listing) (layout : Layout) (id : NodeId) (i : Instruction Offset) :
    Prop where
  offset : layout.offsetOf? id = some i.offset.toNat
  node : ∃ n, l.nodes[id]? = some n ∧ i.opcode = form n.instruction.opcode (layout.isLong id) ∧
    n.instruction.operand.mapTargetsM (layout.resolve l) = .ok (i.operand.map UInt32.toNat)

/-- In a settled layout a short branch reaches. -/
theorem shortReach_of_displaces {l : Listing} {layout : Layout} {id : NodeId}
    (hsettled : outOfReach l layout id = .ok false) {n : Node} (hn : l.nodes[id]? = some n)
    (hbranch : n.instruction.opcode.isBranch) (hshort : layout.isLong id = false) {d : Int}
    (hd : Displaces l layout id d) : ShortReach d := by
  obtain ⟨n', label', start, target', hn', hlabel', hstart, htarget', rfl⟩ := hd
  obtain rfl : n = n' := Option.some.inj (hn.symm.trans hn')
  -- a branch has one label, the one that the layout looked at
  obtain ⟨label, target, hoperand, htarget, hfits⟩ :=
    outOfReach_eq_false hn hbranch hshort hsettled
  rw [hoperand] at hlabel'
  obtain rfl := List.mem_singleton.mp hlabel'
  obtain rfl := Except.ok.inj (htarget.symm.trans htarget')
  have hreach := fits_8_iff.mp hfits
  rw [hstart] at hreach
  rw [hshort, nodeSize, if_pos hbranch, if_neg (by decide)]
  exact hreach

section Agreement

variable {l : Listing} {layout : Layout} (hl : l.Writable) (hstands : Stands l layout 0 l.order)
include hl hstands

omit hl in
/-- A label that stands for a node of the code or for its end resolves. -/
theorem exists_resolve_of_bound {label : Label}
    (h : l.binding label = .atEnd ∨ ∃ id ∈ l.order, l.binding label = .node id) :
    ∃ target, layout.resolve l label = .ok target := by
  rcases h with h | ⟨id, hid, h⟩
  · refine ⟨layout.codeSize, resolve_eq_ok.mpr ?_⟩
    rw [h]
    rfl
  · obtain ⟨-, start, hstart⟩ := exists_of_stands hstands id hid
    refine ⟨start, resolve_eq_ok.mpr ?_⟩
    rw [h]
    exact hstart

/-- Every label in the code resolves. -/
theorem exists_resolve {id : NodeId} (hid : id ∈ l.order) {n : Node} (hn : l.nodes[id]? = some n)
    {label : Label} (hlabel : label ∈ n.instruction.operand.targets) :
    ∃ target, layout.resolve l label = .ok target :=
  exists_resolve_of_bound hstands (hl.bound id hid n hn label hlabel)

section Bounded

variable (hb : Bounded layout)
include hb

/-- A node as written is what the layout makes of it. -/
theorem places_written {id : NodeId} (hid : id ∈ l.order) :
    Places l layout id (written l layout id) := by
  obtain ⟨⟨n, hn⟩, start, hstart⟩ := exists_of_stands hstands id hid
  refine ⟨?_, n, hn, opcode_written hn, ?_⟩
  · rw [toNat_offset_written hb hstart, hstart]
  · rw [operand_written hn, Operand.map_map]
    refine Operand.mapTargetsM_eq_ok fun label hlabel => ?_
    obtain ⟨target, htarget⟩ := exists_resolve hl hstands hid hn hlabel
    rw [htarget]
    exact congrArg Except.ok (toNat_target hb (resolve_eq_ok.mp htarget)).symm

omit hstands in
/-- What can be written reaches all its labels. -/
theorem longReach_of_encodable {id : NodeId} (hid : id ∈ l.order)
    (henc : (written l layout id).Encodable) {d : Int} (hd : Displaces l layout id d) :
    LongReach d := by
  obtain ⟨n, label, start, target, hn, hlabel, hstart, htarget, rfl⟩ := hd
  have hstop := stop_written hn hb (hl.known id hid n hn) hstart
  have hmem : layout.target (l.binding label) ∈ (written l layout id).operand.targets := by
    rw [operand_written hn, Operand.targets_map]
    exact List.mem_map_of_mem hlabel
  have hreach := Operand.longReach_of_encodable henc.2 _ hmem
  rwa [Operand.displacement, hstop, toNat_target hb (resolve_eq_ok.mp htarget)] at hreach

end Bounded

end Agreement

end Layout

/-! ### Failures -/

namespace Assemble

open Layout

variable {l : Listing} {layout : Layout}

theorem displacement_eq_error {tooFar : Int → Error} {d : Int} {e : Error}
    (h : displacement tooFar d = .error e) : ¬LongReach d ∧ e = tooFar d := by
  unfold displacement at h
  split at h
  · cases h
  · next hfits =>
    cases h
    exact ⟨fun hreach => hfits (fits_32_iff.mpr hreach), rfl⟩

theorem distance_of_resolve {stop target : Nat} {label : Label}
    (h : layout.resolve l label = .ok target) :
    distance l layout stop label = .ok ((target : Int) - stop) := by
  rw [distance, h]
  rfl

/-- A branch fails to be written when its displacement fits neither the form chosen for it
nor any longer one. -/
theorem branch_eq_error {stop : Nat} {long : Bool} {i : Instruction Label} {label : Label}
    {d : Int} {e : Error} (hoperand : i.operand = .target label)
    (hdistance : distance l layout stop label = .ok d) (hshort : long = false → ShortReach d)
    (h : branch l layout stop long i = .error e) :
    ¬LongReach d ∧ e = .malformed (.branchTooFar d) := by
  rcases bind_eq_error.mp h with h | ⟨label', hlabel, h⟩
  · rw [branchLabel, hoperand] at h
    cases h
  rw [branchLabel, hoperand] at hlabel
  obtain rfl := Except.ok.inj hlabel
  rcases bind_eq_error.mp h with h | ⟨d', hd', h⟩
  · cases hdistance.symm.trans h
  · obtain rfl := Except.ok.inj (hdistance.symm.trans hd')
    rcases long with - | -
    · rw [if_neg (by decide), if_pos (fits_8_iff.mpr (hshort rfl))] at h
      cases h
    · rw [if_pos rfl] at h
      exact displacement_eq_error (bind_pure_eq_error.mp h)

/-- Of the operands outside of a branch only a jump table can fail to be written, when one
of its displacements does not fit. -/
theorem operand_eq_error {stop : Nat} {kind : OperandKind} {o : Operand Label} {e : Error}
    (hkind : o.HasKind kind) (hbranch : ¬(kind = .shortBranch ∨ kind = .branch))
    (hdistance : ∀ label ∈ o.targets, ∃ d, distance l layout stop label = .ok d)
    (h : operand l layout stop o = .error e) :
    ∃ label ∈ o.targets, ∃ d, distance l layout stop label = .ok d ∧ ¬LongReach d ∧
      e = .malformed (.switchTooFar d) := by
  cases kind <;> cases o <;> try exact hkind.elim
  case switch.switch labels =>
    obtain ⟨label, hlabel, h⟩ := exists_of_mapM_eq_error (bind_pure_eq_error.mp h)
    obtain ⟨d, hd⟩ := hdistance label hlabel
    rcases bind_eq_error.mp h with h | ⟨d', hd', h⟩
    · exact nomatch hd.symm.trans h
    · obtain rfl := Except.ok.inj (hd.symm.trans hd')
      exact ⟨label, hlabel, d, hd, displacement_eq_error h⟩
  case shortBranch.target => exact (hbranch (.inl rfl)).elim
  case branch.target => exact (hbranch (.inr rfl)).elim
  all_goals cases h

/-- A node is kept from being written by a label out of reach, and by nothing else: it is
a branch, or a jump table. -/
theorem node_eq_error (hl : l.Writable) (hstands : Stands l layout 0 l.order) {id : NodeId}
    (hid : id ∈ l.order) (hsettled : outOfReach l layout id = .ok false) {e : Error}
    (h : node l layout id = .error e) :
    ∃ d, Displaces l layout id d ∧ ¬LongReach d ∧
      (e = .malformed (.branchTooFar d) ∨ e = .malformed (.switchTooFar d)) := by
  obtain ⟨⟨n, hn⟩, start, hstart⟩ := exists_of_stands hstands id hid
  have hknown := hl.known id hid n hn
  -- every label has a displacement, so only its size can be what is wrong
  have hdisplaces : ∀ label ∈ n.instruction.operand.targets, ∃ d,
      distance l layout (start + nodeSize n.instruction (layout.isLong id)) label = .ok d ∧
        Displaces l layout id d := fun label hlabel => by
    obtain ⟨target, htarget⟩ := exists_resolve hl hstands hid hn hlabel
    exact ⟨_, distance_of_resolve htarget, n, label, start, target, hn, hlabel, hstart, htarget,
      rfl⟩
  rcases bind_eq_error.mp h with h | ⟨n', hn', h⟩
  · exact nomatch (Layout.node_eq_ok.mpr hn).symm.trans h
  obtain rfl : n = n' := Option.some.inj (hn.symm.trans (Layout.node_eq_ok.mp hn'))
  simp only [hstart, Option.getD_some] at h
  by_cases hbranch : n.instruction.opcode.isBranch = true
  · rw [if_pos hbranch] at h
    obtain ⟨label, hlabel⟩ :=
      Operand.exists_target_of_hasKind hknown.2 ((Opcode.isBranch_iff hknown.1).mp hbranch)
    obtain ⟨d, hdistance, hd⟩ := hdisplaces label (by simp [hlabel, Operand.targets])
    obtain ⟨hreach, he⟩ := branch_eq_error hlabel hdistance
      (fun hshort => shortReach_of_displaces hsettled hn hbranch hshort hd) h
    exact ⟨d, hd, hreach, .inl he⟩
  · rw [if_neg hbranch] at h
    obtain ⟨label, hlabel, d, hdistance, hreach, he⟩ := operand_eq_error hknown.2
      (fun hkind => hbranch ((Opcode.isBranch_iff hknown.1).mpr hkind))
      (fun label hlabel => (hdisplaces label hlabel).imp fun _ h => h.1)
      (bind_pure_eq_error.mp h)
    obtain ⟨d', hdistance', hd⟩ := hdisplaces label hlabel
    obtain rfl := Except.ok.inj (hdistance.symm.trans hdistance')
    exact ⟨d, hd, hreach, .inr he⟩

end Assemble

/-! ### Agreement -/

section Agreement

open Layout

variable {l : Listing} {layout : Layout} {limit : Nat}

/-- A listing is written unless one of its displacements takes more than 32 bits, and that
is then what it fails with. -/
theorem assemble_eq_error (hl : l.Writable) (hlayout : Layout.of l limit = .ok layout) {e : Error}
    (h : assemble l layout = .error e) :
    ∃ id ∈ l.order, ∃ d, Displaces l layout id d ∧ ¬LongReach d ∧
      (e = .malformed (.branchTooFar d) ∨ e = .malformed (.switchTooFar d)) := by
  obtain ⟨hstands, -⟩ := stands_of hl.nodup hlayout
  obtain ⟨id, hid, h⟩ := exists_of_mapM_eq_error (bind_pure_eq_error.mp h)
  exact ⟨id, hid, Assemble.node_eq_error hl hstands hid (outOfReach_of_settle hlayout id hid) h⟩

/-- Writing and reading agree.  For a listing in order and a layout found for it: the bytes
are as many as the layout says, and decode to one instruction for each node, which is what
the layout makes of the node; the listing is written exactly if all its displacements fit
32 bits, and fails with one that does not; and those of short branches fit 8. -/
theorem assemble_agrees (hl : l.Writable) (hlayout : Layout.of l limit = .ok layout) :
    (∀ bytes, assemble l layout = .ok bytes → bytes.length = layout.codeSize ∧
      ∃ code, decode bytes = .ok code ∧ List.Forall₂ (Places l layout) l.order code) ∧
    ((∃ bytes, assemble l layout = .ok bytes) ↔
      ∀ id ∈ l.order, ∀ d, Displaces l layout id d → LongReach d) ∧
    (∀ e, assemble l layout = .error e → ∃ id ∈ l.order, ∃ d, Displaces l layout id d ∧
      ¬LongReach d ∧ (e = .malformed (.branchTooFar d) ∨ e = .malformed (.switchTooFar d))) ∧
    (∀ id ∈ l.order, ∀ n, l.nodes[id]? = some n → n.instruction.opcode.isBranch →
      layout.isLong id = false → (∃ d, Displaces l layout id d) ∧
        ∀ d, Displaces l layout id d → ShortReach d) := by
  obtain ⟨hstands, hb⟩ := stands_of hl.nodup hlayout
  have hsettled := outOfReach_of_settle hlayout
  refine ⟨fun bytes h => ?_, ⟨fun ⟨bytes, h⟩ id hid d hd => ?_, fun h => ?_⟩,
    fun e => assemble_eq_error hl hlayout, fun id hid n hn hbranch hshort => ⟨?_, fun d =>
      shortReach_of_displaces (hsettled id hid) hn hbranch hshort⟩⟩
  · obtain ⟨hbytes, henc, hcont⟩ := assembled hl.nodup hl.known hlayout h
    refine ⟨?_, _, decode_assemble hl.nodup hl.known hlayout h, ?_⟩
    · rw [codeSize_eq hl.known hstands, codeEnd_eq (List.forall_mem_map.mpr henc), ← hbytes,
        Nat.zero_add]
    · exact List.forall₂_map_right_iff.mpr
        (List.forall₂_same.mpr fun id hid => places_written hl hstands hb hid)
  · obtain ⟨-, henc, -⟩ := assembled hl.nodup hl.known hlayout h
    exact Layout.longReach_of_encodable hl hb hid (henc id hid) hd
  · rcases he : assemble l layout with e | bytes
    · obtain ⟨id, hid, d, hd, hreach, -⟩ := assemble_eq_error hl hlayout he
      exact absurd (h id hid d hd) hreach
    · exact ⟨bytes, rfl⟩
  · obtain ⟨-, start, hstart⟩ := exists_of_stands hstands id hid
    obtain ⟨label, target, hoperand, htarget, -⟩ :=
      outOfReach_eq_false hn hbranch hshort (hsettled id hid)
    exact ⟨_, n, label, start, target, hn, by simp [hoperand, Operand.targets], hstart, htarget,
      rfl⟩

end Agreement

/-! ### A branch over a jump table -/

/-- A long branch over a table of forty, a short branch, and a return; both branches go to
the return, and the table to the short branch. -/
def jumpsListing : Listing where
  nodes := #[⟨.new ⟨0x38⟩ (.target 1), none⟩, ⟨.new ⟨0x45⟩ (.switch (List.replicate 40 0)), none⟩,
    ⟨.new ⟨0x2B⟩ (.target 1), none⟩, ⟨.new ⟨0x2A⟩ .none, none⟩]
  order := [0, 1, 2, 3]
  bindings := #[.node 2, .node 3]
  positionLabels := ∅
  positionNodes := ∅
  initialSize := 0

/-- Where its nodes go. -/
def jumpsLayout : Layout where
  offsets := #[some 0, some 5, some 170, some 172]
  long := #[true, false, false, false]
  codeSize := 173
  passes := 2

theorem writable_jumpsListing : jumpsListing.Writable where
  nodup := by decide
  known := by
    intro id hid n hn
    simp only [jumpsListing, List.mem_cons, List.not_mem_nil, or_false] at hid
    rcases hid with rfl | rfl | rfl | rfl <;> obtain rfl := Option.some.inj hn <;>
      exact ⟨by decide +kernel, trivial⟩
  bound := by
    intro id hid n hn label hlabel
    simp only [jumpsListing, List.mem_cons, List.not_mem_nil, or_false] at hid
    rcases hid with rfl | rfl | rfl | rfl <;> obtain rfl := Option.some.inj hn
    · obtain rfl := List.mem_singleton.mp hlabel
      exact .inr ⟨3, by decide, rfl⟩
    · obtain rfl := List.eq_of_mem_replicate hlabel
      exact .inr ⟨2, by decide, rfl⟩
    · obtain rfl := List.mem_singleton.mp hlabel
      exact .inr ⟨3, by decide, rfl⟩
    · cases hlabel

theorem assemble_agrees_jumpsListing :
    jumpsListing.Writable ∧ Layout.of jumpsListing 32 = .ok jumpsLayout ∧
      ∃ bytes code, assemble jumpsListing jumpsLayout = .ok bytes ∧ bytes.length = 173 ∧
        decode bytes = .ok code ∧
        List.Forall₂ (Layout.Places jumpsListing jumpsLayout) jumpsListing.order code ∧
        ∃ d, Layout.Displaces jumpsListing jumpsLayout 2 d ∧ ShortReach d := by
  have hlayout : Layout.of jumpsListing 32 = .ok jumpsLayout := by decide +kernel
  have hwritten : ((assemble jumpsListing jumpsLayout).toOption).isSome = true := by
    decide +kernel
  obtain ⟨hagree, -, -, hshort⟩ := assemble_agrees writable_jumpsListing hlayout
  obtain ⟨⟨d, hd⟩, hreach⟩ := hshort 2 (by decide) _ rfl (by decide +kernel) rfl
  rcases h : assemble jumpsListing jumpsLayout with e | bytes
  · rw [h] at hwritten
    cases hwritten
  · obtain ⟨hlength, code, hcode, hplaces⟩ := hagree bytes h
    exact ⟨writable_jumpsListing, hlayout, bytes, code, rfl, hlength, hcode, hplaces, d, hd,
      hreach d hd⟩

end CilProbe
