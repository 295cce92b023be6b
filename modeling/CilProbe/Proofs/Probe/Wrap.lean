/-
CilProbe/Proofs/Probe/Wrap.lean

The exit probe.  `Wrapped` says what it does to any listing: the nodes of the code
are redirected returns or unchanged, the tail is behind them, labels for the end of
the code now stand for the start of the tail, and the labels of the new clauses
stand where those are to start and end.  `shape_of_wrap` puts this together with
what the listing was before: the draft is ready to be written.
-/
import CilProbe.Proofs.Probe.Shape

namespace CilProbe

namespace Draft

/-! ### The listing that comes out -/

section Wrapped

variable {code : List (Instruction Offset)} (l₂ : Listing) (labels : Array Binding)
  (first : NodeId) (slots : ExitSlots) (answerSlot : UInt16)
  (exit : Token) (exceptionType : Option Token)

/-- The labels from before stand for what they stood for, or for the first node of
the tail where they stood for the end of the code. -/
theorem binding_wrapped {label : Label} (h : label < labels.size) :
    (wrappedListing l₂ labels first slots answerSlot exit exceptionType).binding label =
      if (labels[label]?).getD .unbound = .atEnd then .node l₂.nodes.size
      else (labels[label]?).getD .unbound := by
  unfold wrappedListing Listing.binding
  simp only
  rw [Array.append_assoc, Array.getElem?_append_left (by simpa using h), Array.getElem?_map,
    Array.getElem?_eq_getElem h]
  rfl

/-- What the label of the epilogue and those of the ranges of the exit probe stand
for. -/
theorem binding_wrapped_new :
    let L := wrappedListing l₂ labels first slots answerSlot exit exceptionType
    L.binding labels.size =
        .node (epilogueNode l₂.nodes.size slots answerSlot exit exceptionType) ∧
      L.binding (labels.size + 1) = .node first ∧
      L.binding (labels.size + 2) = .node (finallyNode l₂.nodes.size slots exceptionType) ∧
      L.binding (labels.size + 3) =
        .node (epilogueNode l₂.nodes.size slots answerSlot exit exceptionType) ∧
      (exceptionType.isSome → L.binding (labels.size + 4) = .node l₂.nodes.size) := by
  intro L
  -- the labels from before come first, whatever they stand for now
  have hnew : ∀ k < 4, L.binding (labels.size + k) = (#[
      Binding.node (epilogueNode l₂.nodes.size slots answerSlot exit exceptionType), .node first,
      .node (finallyNode l₂.nodes.size slots exceptionType),
      .node (epilogueNode l₂.nodes.size slots answerSlot exit exceptionType)][k]?).getD
        .unbound := fun k hk => by
    simp only [L, wrappedListing, Listing.binding]
    rw [Array.append_assoc, Array.getElem?_append_right (by simp), Array.size_map,
      Nat.add_sub_cancel_left, Array.getElem?_append_left (by simpa using hk)]
  refine ⟨hnew 0 (by decide), hnew 1 (by decide), hnew 2 (by decide), hnew 3 (by decide), ?_⟩
  intro h
  simp [L, wrappedListing, Listing.binding, h]

/-- The nodes of that listing behind the entry probe, part by part; the tail begins
at `start`. -/
def wrappedParts (groups : List (List NodeId)) (start : NodeId) : Parts where
  groups := groups
  catch_ := List.range' start (catchPart slots exceptionType).length
  finally_ := List.range' (finallyNode start slots exceptionType)
    (finallyCode slots answerSlot exit).length
  epilogue := List.range' (epilogueNode start slots answerSlot exit exceptionType)
    (epilogueCode slots).length

section WrappedParts

variable (groups : List (List NodeId)) (start : NodeId)

theorem order_wrappedParts :
    (wrappedParts slots answerSlot exit exceptionType groups start).order =
      wrappedOrder groups start slots answerSlot exit exceptionType := by
  simp [wrappedOrder, wrappedParts, Parts.order, Parts.tail]

/-- The numbers of the tail are in a row. -/
theorem tail_wrappedParts :
    (wrappedParts slots answerSlot exit exceptionType groups start).tail =
      List.range' start (tailCode slots answerSlot exit exceptionType).length := by
  rw [Parts.tail, wrappedParts, epilogueNode, finallyNode, List.range'_append_1, Nat.add_assoc,
    List.range'_append_1, tailCode, List.length_append, List.length_append]

theorem behind_wrappedParts :
    (wrappedParts slots answerSlot exit exceptionType groups start).behind = .node start := by
  have hpos : 0 < (tailCode slots answerSlot exit exceptionType).length := by
    simp only [tailCode, epilogueCode, List.length_append, List.length_cons]
    omega
  rw [Parts.behind, tail_wrappedParts, head?_range' hpos]
  rfl

theorem finallyStart_wrappedParts :
    (wrappedParts slots answerSlot exit exceptionType groups start).finallyStart =
      .node (finallyNode start slots exceptionType) := by
  rw [Parts.finallyStart, wrappedParts, head?_range' (by simp [finallyCode])]
  rfl

theorem epilogueStart_wrappedParts :
    (wrappedParts slots answerSlot exit exceptionType groups start).epilogueStart =
      .node (epilogueNode start slots answerSlot exit exceptionType) := by
  rw [Parts.epilogueStart, wrappedParts, head?_range' (by simp [epilogueCode])]
  rfl

/-- The labels of the new clauses stand where their ranges are to start and end. -/
theorem clauses_wrapped :
    (wrappedClauses labels.size exceptionType).map
        (bound (wrappedListing l₂ labels first slots answerSlot exit exceptionType)) =
      exitBound exceptionType (.node first)
        (wrappedParts slots answerSlot exit exceptionType groups l₂.nodes.size) := by
  obtain ⟨-, h₁, h₂, h₃, h₄⟩ :=
    binding_wrapped_new l₂ labels first slots answerSlot exit exceptionType
  unfold wrappedClauses exitBound
  rw [behind_wrappedParts, finallyStart_wrappedParts, epilogueStart_wrappedParts]
  rcases exceptionType with - | type
  · simp [bound, h₁, h₂, h₃]
  · simp [bound, h₁, h₂, h₃, h₄ rfl]

/-- What stands under the numbers of the tail. -/
theorem map_getElem?_tail :
    let L := wrappedListing l₂ labels first slots answerSlot exit exceptionType
    let p := wrappedParts slots answerSlot exit exceptionType groups l₂.nodes.size
    p.catch_.map (L.nodes[·]?) = ((catchPart slots exceptionType).map later).map some ∧
      p.finally_.map (L.nodes[·]?) = ((finallyCode slots answerSlot exit).map later).map some ∧
      p.epilogue.map (L.nodes[·]?) = ((epilogueCode slots).map later).map some := by
  intro L p
  have htail : p.tail.map (L.nodes[·]?) =
      ((tailCode slots answerSlot exit exceptionType).map later).map some := by
    rw [tail_wrappedParts, ← map_getElem?_append l₂.nodes, List.length_map]
    rfl
  -- both sides are in three parts, and the parts are as long as each other
  rw [Parts.tail, tailCode, List.map_append, List.map_append, List.map_append, List.map_append,
    List.map_append, List.map_append] at htail
  obtain ⟨hfront, hepilogue⟩ := List.append_inj htail (by simp [p, wrappedParts])
  obtain ⟨hcatch, hfinally⟩ := List.append_inj hfront (by simp [p, wrappedParts])
  exact ⟨hcatch, hfinally, hepilogue⟩

end WrappedParts

/-- An instruction is a return exactly if its mirror is. -/
theorem opcode_eq_ret_iff {l : Listing} {i : Instruction Offset} {n : Node} (h : l.Mirror i n) :
    n.instruction.opcode = Opcode.ret ↔ i.opcode = Opcode.ret := by
  rw [h.opcode]
  constructor
  · intro hret
    exact Opcode.eq_of_longForm_eq hret (by decide)
  · intro hret
    rw [hret]
    rfl

/-- The nodes that stand for an instruction after its return was redirected say what
becomes of the instruction. -/
theorem redirected_acts {L : Listing} {i : Instruction Offset} {n : Node} {k : NodeId}
    {rest : List NodeId} {epilogue : Label} (q : ExitPlan)
    (hn : L.nodes[k]? = some (redirected q.slots.value epilogue n).1)
    (hrest : rest.map (L.nodes[·]?) = (redirected q.slots.value epilogue n).2.map some)
    (hmirror : L.Mirror i n) (hpositions : L.positionNodes = indexByOffset code) :
    (k :: rest).map L.actOf =
        (imageActs (some q) (moveTo code) (L.binding epilogue) i).map some ∧
      L.originOf k = some i.offset ∧ ∀ m ∈ rest, L.originOf m = none := by
  unfold redirected at hn hrest
  unfold imageActs
  by_cases hret : i.opcode = Opcode.ret
  · -- a return becomes a leave, behind a store if there is a value
    have hnret := (opcode_eq_ret_iff hmirror).mpr hret
    rw [if_pos hnret] at hn hrest
    simp only [if_pos hret, ExitPlan.returnActs]
    rcases hvalue : q.slots.value with - | slot
    · simp only [hvalue, List.map_nil, List.map_eq_nil_iff] at hn hrest
      subst hrest
      refine ⟨?_, ?_, by simp⟩
      · rw [List.map_cons, Listing.actOf_of_node hn]
        rfl
      · rw [Listing.originOf_of_node hn]
        exact hmirror.origin
    · simp only [hvalue] at hn hrest
      have hlater : rest.map (L.nodes[·]?) =
          ([.new Opcode.leave (.target epilogue)].map later).map some := hrest
      refine ⟨?_, ?_, map_originOf_of_later hlater⟩
      · rw [List.map_cons, map_actOf_of_later hlater, Listing.actOf_of_node hn]
        show some ((Instruction.storeLocal slot).act.map L.binding) :: _ = _
        rw [act_storeLocal_map]
        rfl
      · rw [Listing.originOf_of_node hn]
        exact hmirror.origin
  · -- any other instruction stays what it was
    have hnret : ¬n.instruction.opcode = Opcode.ret :=
      fun h => hret ((opcode_eq_ret_iff hmirror).mp h)
    rw [if_neg hnret] at hn hrest
    simp only [if_neg hret]
    simp only [List.map_nil, List.map_eq_nil_iff] at hrest
    subst hrest
    refine ⟨?_, ?_, by simp⟩
    · rw [List.map_cons, actOf_of_mirror hn hmirror hpositions]
      rfl
    · rw [Listing.originOf_of_node hn]
      exact hmirror.origin

theorem known_tailCode : ∀ i ∈ tailCode slots answerSlot exit exceptionType, i.Known := by
  have hcall : (Instruction.new Opcode.call (.token exit) : Instruction Label).Known :=
    Instruction.known_of_info? Opcode.info?_call trivial
  have hend : (Instruction.new Opcode.endfinally .none : Instruction Label).Known :=
    Instruction.known_of_info? Opcode.info?_endfinally trivial
  have hthrow : (Instruction.new Opcode.rethrow .none : Instruction Label).Known :=
    Instruction.known_of_info? Opcode.info?_rethrow trivial
  have hret : (Instruction.new Opcode.ret .none : Instruction Label).Known :=
    Instruction.known_of_info? Opcode.info?_ret trivial
  have hload : ∀ i ∈ (slots.value.map Instruction.loadLocal).toList,
      (i : Instruction Label).Known := by
    rcases slots.value with - | slot
    · simp
    · simpa using Instruction.known_loadLocal slot
  have hcatch : ∀ i ∈ catchPart slots exceptionType, i.Known := by
    unfold catchPart
    split
    · simpa [catchCode] using ⟨Instruction.known_storeLocal slots.exception, hthrow⟩
    · simp
  unfold tailCode finallyCode epilogueCode
  simp only [List.forall_mem_append, List.forall_mem_cons]
  exact ⟨⟨hcatch, hload, Instruction.known_loadLocal _, Instruction.known_loadLocal _, hcall, hend,
    by simp⟩, hload, hret, by simp⟩

end Wrapped

/-- What the exit probe makes of a listing `l`; `label` is the label of the epilogue. -/
structure Wrapped (l L : Listing) (q : ExitPlan) (answerSlot : UInt16) (label : Label)
    (first : NodeId) (p : Parts) : Prop where
  positionNodes : L.positionNodes = l.positionNodes
  keep : ∀ k < l.nodes.size, k ∉ l.order → L.nodes[k]? = l.nodes[k]?
  groups : List.Forall₂ (Redirected l L q.slots.value label) l.order p.groups
  nodup : p.order.Nodup
  fresh : ∀ k ∈ p.order, k ∈ l.order ∨ l.nodes.size ≤ k
  catch_ : p.catch_.map (L.nodes[·]?) = ((catchPart q.slots q.exceptionType).map later).map some
  finally_ : p.finally_.map (L.nodes[·]?) =
    ((finallyCode q.slots answerSlot q.exit).map later).map some
  epilogue : p.epilogue.map (L.nodes[·]?) = ((epilogueCode q.slots).map later).map some
  known : l.Known → L.Known
  binding : ∀ label, l.binding label ≠ .unbound →
    L.binding label = if l.binding label = .atEnd then p.behind else l.binding label
  epilogueLabel : L.binding label = p.epilogueStart
  clauses : (wrappedClauses label q.exceptionType).map (bound L) =
    exitBound q.exceptionType (.node first) p

theorem map_of_map {l L : Listing}
    (h : ∀ (k : NodeId) (n : Node), l.nodes[k]? = some n → L.nodes[k]? = some n)
    {ids : List NodeId} {ns : List Node} (hids : ids.map (l.nodes[·]?) = ns.map some) :
    ids.map (L.nodes[·]?) = ns.map some := by
  rw [← hids]
  refine List.map_congr_left fun k hk => ?_
  have hk' := List.mem_map_of_mem (f := fun k => l.nodes[k]?) hk
  rw [hids] at hk'
  obtain ⟨n, -, hn⟩ := List.mem_map.mp hk'
  show L.nodes[k]? = l.nodes[k]?
  rw [← hn, h k n hn.symm]

/-- Code with its returns redirected and a tail behind it holds no node twice, and only
nodes it held before or that are new. -/
theorem RedirectedAll.append_range' {l l₂ : Listing} {value : Option UInt16} {epilogue : Label}
    {ids : List NodeId} {groups : List (List NodeId)}
    (h : RedirectedAll l l₂ value epilogue ids groups) (hlt : ∀ id ∈ ids, id < l.nodes.size)
    (count : Nat) :
    (groups.flatten ++ List.range' l₂.nodes.size count).Nodup ∧
      ∀ k ∈ groups.flatten ++ List.range' l₂.nodes.size count, k ∈ ids ∨ l.nodes.size ≤ k := by
  constructor
  · refine List.nodup_append.mpr ⟨h.nodup, List.nodup_range', ?_⟩
    rintro k hk k' hk' rfl
    have hge := (List.mem_range'_1.mp hk').1
    rcases h.fresh k hk with hk | ⟨-, hlt'⟩
    · exact Nat.not_lt_of_le hge (Nat.lt_of_lt_of_le (hlt k hk) h.size_le)
    · exact Nat.not_lt_of_le hge hlt'
  · intro k hk
    rcases List.mem_append.mp hk with hk | hk
    · exact (h.fresh k hk).imp id And.left
    · exact .inr (Nat.le_trans h.size_le (List.mem_range'_1.mp hk).1)

theorem wrapped_of_wrap {l L : Listing} {q : ExitPlan} {answerSlot : UInt16} {order : List NodeId}
    {clauses : List LabelledClause} (hids : l.order.Nodup)
    (hlt : ∀ id ∈ l.order, id < l.nodes.size)
    (h : (wrap q.slots answerSlot q.exit q.exceptionType).run l = .ok ((order, clauses), L)) :
    ∃ first p, l.order.head? = some first ∧ order = p.order ∧
      clauses = wrappedClauses l.bindings.size q.exceptionType ∧
      Wrapped l L q answerSlot l.bindings.size first p := by
  obtain ⟨first, groups, l₂, hfirst, hgroups⟩ := exists_groups_of_wrap h
  have hredirected := mapM_redirectReturn (l := (l.addLabel .unbound).2) hids hlt hgroups
  have hbindings : l₂.bindings = l.bindings.push .unbound := by
    rw [hredirected.listing]
    rfl
  have hpositions : l₂.positionNodes = l.positionNodes := by
    rw [hredirected.listing]
    rfl
  have hrun := wrap_run q.slots answerSlot q.exit q.exceptionType hfirst hgroups hbindings
  obtain ⟨⟨rfl, rfl⟩, rfl⟩ := by simpa using hrun.symm.trans h
  set L := wrappedListing l₂ l.bindings first q.slots answerSlot q.exit q.exceptionType
  let p := wrappedParts q.slots answerSlot q.exit q.exceptionType groups l₂.nodes.size
  obtain ⟨hcatch, hfinally, hepilogue⟩ := map_getElem?_tail l₂ l.bindings first q.slots answerSlot
    q.exit q.exceptionType groups
  have hlabel := (binding_wrapped_new l₂ l.bindings first q.slots answerSlot q.exit
    q.exceptionType).1
  have horder : p.order = groups.flatten ++ List.range' l₂.nodes.size
      (tailCode q.slots answerSlot q.exit q.exceptionType).length := by
    rw [Parts.order, tail_wrappedParts]
    rfl
  obtain ⟨hnodup, hfresh⟩ := hredirected.append_range' hlt
    (tailCode q.slots answerSlot q.exit q.exceptionType).length
  refine ⟨first, p, hfirst, (order_wrappedParts ..).symm, rfl, ?_⟩
  -- the tail comes behind the nodes there are, which stay where they are
  have hup : ∀ (k : NodeId) (n : Node), l₂.nodes[k]? = some n → L.nodes[k]? = some n :=
    fun k n hn => by
      rw [← hn]
      exact Array.getElem?_append_left (Array.getElem?_eq_some_iff.mp hn).1
  exact {
    positionNodes := hpositions
    keep := fun k hk hid => by
      rw [← show l₂.nodes[k]? = l.nodes[k]? from hredirected.keep k hk hid]
      exact Array.getElem?_append_left (Nat.lt_of_lt_of_le hk hredirected.size_le)
    groups := hredirected.grouped.imp fun k group hgroup => by
      obtain ⟨n, rest, hn, hgroup, hfirst, hrest⟩ := hgroup
      exact ⟨n, rest, hn, hgroup, hup k _ hfirst, map_of_map hup hrest⟩
    nodup := horder ▸ hnodup
    fresh := horder ▸ hfresh
    catch_ := hcatch
    finally_ := hfinally
    epilogue := hepilogue
    known := fun hknown => known_withNodes (hredirected.known hknown)
      (known_tailCode q.slots answerSlot q.exit q.exceptionType)
    binding := fun label hbound => by
      rw [behind_wrappedParts]
      exact binding_wrapped _ _ _ _ _ _ _ (Listing.lt_of_binding hbound)
    epilogueLabel := hlabel.trans (epilogueStart_wrappedParts ..).symm
    clauses := clauses_wrapped .. }

/-! ### With an exit probe -/

variable {request : ProbeRequest} {body : MethodBody} {code : List (Instruction Offset)}
  {size : Offset} {d d' d'' : Draft} {method enter : Token}

section Added

variable {l L : Listing} {is : List (Instruction Label)} {q : ExitPlan} {answerSlot : UInt16}
  {label : Label} {first : NodeId} {p : Parts}

/-- Nodes that were added to the listing of the method stay when its code is wrapped. -/
theorem Wrapped.map_added (hm : l.Mirrors code size)
    (h : Wrapped (withNodes l is) L q answerSlot label first p) :
    (List.range' code.length is.length).map (L.nodes[·]?) = (is.map later).map some := by
  rw [← map_getElem?_withNodes l, hm.count]
  refine List.map_congr_left fun k hk => ?_
  obtain ⟨hlow, hhigh⟩ := List.mem_range'_1.mp hk
  refine h.keep k (by simpa [withNodes, hm.count] using hhigh) fun hk' => ?_
  rw [show (withNodes l is).order = List.range code.length from hm.order, List.mem_range] at hk'
  exact Nat.not_lt_of_le hlow hk'

/-- They are no part of the code that comes out. -/
theorem Wrapped.nodup_added (hm : l.Mirrors code size)
    (h : Wrapped (withNodes l is) L q answerSlot label first p) :
    (List.range' code.length is.length ++ p.order).Nodup := by
  refine List.nodup_append.mpr ⟨List.nodup_range', h.nodup, ?_⟩
  rintro k hk k' hk' rfl
  obtain ⟨hlow, hhigh⟩ := List.mem_range'_1.mp hk
  rcases h.fresh k hk' with hk' | hk'
  · rw [show (withNodes l is).order = List.range code.length from hm.order, List.mem_range] at hk'
    exact Nat.not_lt_of_le hlow hk'
  · exact Nat.not_lt_of_le hk' (by simpa [withNodes, hm.count] using hhigh)

/-- The group of an instruction begins with the node of that instruction and says what
becomes of it. -/
theorem Wrapped.group (hm : l.Mirrors code size)
    (h : Wrapped (withNodes l is) L q answerSlot label first p) {k : NodeId}
    {i : Instruction Offset} (hi : code[k]? = some i) :
    ∃ rest, p.groups[k]? = some (k :: rest) ∧
      (k :: rest).map L.actOf =
        (imageActs (some q) (moveTo code) p.epilogueStart i).map some ∧
      L.originOf k = some i.offset ∧ ∀ m ∈ rest, L.originOf m = none := by
  have hk := (List.getElem?_eq_some_iff.mp hi).1
  have hid : (withNodes l is).order[k]? = some k := by
    rw [show (withNodes l is).order = List.range code.length from hm.order]
    simp [hk]
  obtain ⟨group, hgroup, n, rest, hn, rfl, hhead, hrest⟩ := exists_of_forall₂ h.groups hid
  obtain ⟨n', hn', hmirror⟩ := hm.node k i hi
  obtain rfl : n = n' := by
    rw [getElem?_withNodes _ hn'] at hn
    exact (Option.some.inj hn).symm
  -- only labels for the end of the code have moved, and no target is one of these
  have hmirror' : L.Mirror i n := hmirror.keep h.positionNodes fun label id hid => by
    have hnode : (withNodes l is).binding label = .node id := hid
    rw [h.binding label (by rw [hnode]; exact Binding.noConfusion), hnode,
      if_neg Binding.noConfusion]
  obtain ⟨hacts, horigin, hothers⟩ := redirected_acts q hhead hrest hmirror'
    (h.positionNodes.trans hm.positionNodes)
  rw [h.epilogueLabel] at hacts
  exact ⟨rest, hgroup, hacts, horigin, hothers⟩

end Added

theorem shape_of_wrap {q : ExitPlan} (hopened : Opened request body code size d)
    (hcode : ∀ i ∈ code, i.Known) (hentry : d.insertEntry method enter = .ok d')
    (h : d'.wrapExit q.slots q.exit q.exceptionType = .ok d'') :
    ∃ p, Shape body code size method enter (some q) d'' p := by
  obtain rfl := insertEntry_eq_ok hopened.mirrors.count hentry
  have hm := hopened.mirrors
  unfold wrapExit at h
  obtain ⟨⟨⟨order, clauses⟩, L⟩, hwrap, h⟩ := bind_eq_ok.mp h
  obtain rfl := pure_eq_ok.mp h
  set l := withNodes d.listing (entryCode method enter d.answerSlot)
  have horder : l.order = List.range code.length := hm.order
  have hlt : ∀ id ∈ l.order, id < l.nodes.size := fun id hid => by
    rw [horder, List.mem_range] at hid
    exact Nat.lt_of_lt_of_le hid (by simp [l, withNodes, hm.count])
  obtain ⟨first, p, hfirst, rfl, rfl, hw⟩ :=
    wrapped_of_wrap (l := l) (horder ▸ List.nodup_range) hlt hwrap
  -- the code begins where it did
  obtain rfl : 0 = first := by
    rw [horder, List.head?_range] at hfirst
    split at hfirst
    · cases hfirst
    · exact Option.some.inj hfirst
  have hentry' := hw.map_added hm
  obtain ⟨hclauses, hedges⟩ := bound_of_labels hm L p.behind hopened.clauses hw.binding
  refine ⟨p, ?_⟩
  exact {
    order := rfl
    nodup := hw.nodup_added hm
    known := hw.known (known_withNodes (hm.known hcode) (known_entryCode d.answerSlot))
    entry_acts := by
      rw [← entryCode_acts method enter d.answerSlot L.binding]
      exact map_actOf_of_later hentry'
    catch_acts := by
      rw [Option.elim_some, ← catchPart_acts q L.binding]
      exact map_actOf_of_later hw.catch_
    finally_acts := by
      rw [Option.elim_some, ← finallyCode_acts q d.answerSlot L.binding]
      exact map_actOf_of_later hw.finally_
    epilogue_acts := by
      rw [Option.elim_some, ← epilogueCode_acts q L.binding]
      exact map_actOf_of_later hw.epilogue
    added := by
      intro id hid
      simp only [Parts.tail, List.mem_append] at hid
      rcases hid with hid | (hid | hid) | hid
      · exact map_originOf_of_later hentry' id hid
      · exact map_originOf_of_later hw.catch_ id hid
      · exact map_originOf_of_later hw.finally_ id hid
      · exact map_originOf_of_later hw.epilogue id hid
    count := by
      rw [← hw.groups.length_eq, horder, List.length_range]
    group := fun _ _ hi => hw.group hm hi
    targets := hm.targets
    clauses := by
      show (d.clauses ++ wrappedClauses _ _).map (bound L) = _
      rw [List.map_append, hclauses, hw.clauses]
      rfl
    edges := hedges }

end Draft

end CilProbe
