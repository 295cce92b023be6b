/-
CilProbe/Proofs/Probe/Shape.lean

What a draft holds when it is ready to be written (`Shape`): in this order the entry
probe, one group of nodes for each instruction of the method, and behind them the
handlers and the epilogue, if there is an exit probe.  The clauses are those of the
method, with ranges that ended with the code now ending where the code behind it
starts, and then those of the exit probe.

`shape_of_entry` is the case without an exit probe.
-/
import CilProbe.Proofs.Probe.Opened

namespace CilProbe

namespace Draft

/-! ### Parts of a draft -/

/-- The nodes of a draft behind its entry probe, in the order of its code. -/
structure Parts where
  /-- What stands for each instruction of the method. -/
  groups : List (List NodeId)
  /-- The catch handler. -/
  catch_ : List NodeId
  /-- The finally handler. -/
  finally_ : List NodeId
  /-- The epilogue. -/
  epilogue : List NodeId

namespace Parts

/-- What is behind the code of the method. -/
def tail (p : Parts) : List NodeId := p.catch_ ++ p.finally_ ++ p.epilogue

/-- All of them in order. -/
def order (p : Parts) : List NodeId := p.groups.flatten ++ p.tail

/-- Where the code of the method ends. -/
def behind (p : Parts) : Binding := p.tail.head?.elim .atEnd .node

/-- Where the finally handler starts. -/
def finallyStart (p : Parts) : Binding := .node (p.finally_.head?.getD 0)

/-- Where the epilogue starts. -/
def epilogueStart (p : Parts) : Binding := .node (p.epilogue.head?.getD 0)

end Parts

/-- Where the instruction at a position has gone. -/
def moveTo (code : List (Instruction Offset)) (target : Offset) : Binding :=
  .node (((indexByOffset code)[target]?).getD 0)

/-- Where the end of a range has gone: with the instruction there, or with the end
of the code. -/
def edgeTo (code : List (Instruction Offset)) (behind : Binding) (offset : Offset) : Binding :=
  ((indexByOffset code)[offset]?).elim behind .node

/-- A clause of the method, with the ends of its ranges where they have gone. -/
def boundBy (edge : Offset → Binding) (c : Clause) : BoundClause :=
  ⟨c.flags, c.classOrFilter, edge c.tryOffset, edge c.tryEnd, edge c.handlerOffset,
    edge c.handlerEnd⟩

/-- The clauses of the exit probe.  The inner one, if there is a catch handler,
protects the code of the method, which begins at `start`; the outer one protects the
catch handler as well. -/
def exitBound (exceptionType : Option Token) (start : Binding) (p : Parts) : List BoundClause :=
  (exceptionType.map fun type =>
    ⟨.catch_, type.value, start, p.behind, p.behind, p.finallyStart⟩).toList ++
    [⟨.finallyOnly, 0, start, p.finallyStart, p.finallyStart, p.epilogueStart⟩]

/-- A draft that is ready to be written. -/
structure Shape (body : MethodBody) (code : List (Instruction Offset)) (size : Offset)
    (method enter : Token) (plan : Option ExitPlan) (d : Draft) (p : Parts) : Prop where
  order : d.listing.order = p.order
  nodup : (d.entry ++ p.order).Nodup
  known : d.listing.Known
  entry_acts : d.entry.map d.listing.actOf = (entryActs method enter d.answerSlot).map some
  catch_acts : p.catch_.map d.listing.actOf = (plan.elim [] ExitPlan.catchActs).map some
  finally_acts : p.finally_.map d.listing.actOf =
    (plan.elim [] (·.finallyActs d.answerSlot)).map some
  epilogue_acts : p.epilogue.map d.listing.actOf = (plan.elim [] ExitPlan.epilogueActs).map some
  added : ∀ id ∈ d.entry ++ p.tail, d.listing.originOf id = none
  count : p.groups.length = code.length
  group : ∀ (k : NodeId) (i : Instruction Offset), code[k]? = some i →
    ∃ rest, p.groups[k]? = some (k :: rest) ∧
      (k :: rest).map d.listing.actOf =
        (imageActs plan (moveTo code) p.epilogueStart i).map some ∧
      d.listing.originOf k = some i.offset ∧ ∀ m ∈ rest, d.listing.originOf m = none
  targets : ∀ i ∈ code, ∀ t ∈ i.operand.targets, ∃ k, (indexByOffset code)[t]? = some k
  clauses : d.clauses.map (bound d.listing) =
    body.clauses.map (boundBy (edgeTo code p.behind)) ++
      plan.elim [] fun q => exitBound q.exceptionType (.node 0) p
  edges : ∀ c ∈ body.clauses, ∀ o ∈ [c.tryOffset, c.tryEnd, c.handlerOffset, c.handlerEnd],
    (∃ k, (indexByOffset code)[o]? = some k) ∨ o = size

/-! ### Clauses -/

section Clauses

variable {code : List (Instruction Offset)} {size : Offset} {l l' : Listing}

/-- What a label for a position stands for, after the labels for the end of the code
went to `behind`. -/
theorem binding_of_bindingAt? (hl : l.Mirrors code size) {behind : Binding} {offset : Offset}
    {label : Label} (h : l.bindingAt? offset = some (l.binding label))
    (hnew : l'.binding label = if l.binding label = .atEnd then behind else l.binding label) :
    l'.binding label = edgeTo code behind offset ∧
      ((∃ k, (indexByOffset code)[offset]? = some k) ∨ offset = size) := by
  unfold Listing.bindingAt? at h
  rw [hl.positionNodes, hl.initialSize] at h
  unfold edgeTo
  rcases hindex : (indexByOffset code)[offset]? with - | k
  · rw [hindex] at h
    simp only at h
    split at h
    · next heq =>
      rw [hnew, ← Option.some.inj h, if_pos rfl]
      exact ⟨rfl, .inr heq⟩
    · cases h
  · rw [hindex] at h
    rw [hnew, ← Option.some.inj h, if_neg Binding.noConfusion]
    exact ⟨rfl, .inl ⟨k, rfl⟩⟩

/-- The clauses of the method, after the labels for the end of the code went to
`behind`. -/
theorem bound_of_labels (hl : l.Mirrors code size) (l' : Listing) (behind : Binding)
    {clauses : List Clause} {labelled : List LabelledClause}
    (h : List.Forall₂ (LabelsOf l) clauses labelled)
    (hnew : ∀ label, l.binding label ≠ .unbound →
      l'.binding label = if l.binding label = .atEnd then behind else l.binding label) :
    labelled.map (bound l') = clauses.map (boundBy (edgeTo code behind)) ∧
      ∀ c ∈ clauses, ∀ o ∈ [c.tryOffset, c.tryEnd, c.handlerOffset, c.handlerEnd],
        (∃ k, (indexByOffset code)[o]? = some k) ∨ o = size := by
  have hat : ∀ {offset : Offset} {label : Label},
      l.bindingAt? offset = some (l.binding label) →
      l'.binding label = edgeTo code behind offset ∧
        ((∃ k, (indexByOffset code)[offset]? = some k) ∨ offset = size) := fun hb =>
    binding_of_bindingAt? hl hb (hnew _ (Listing.ne_unbound_of_bindingAt? hb))
  induction h with
  | nil => exact ⟨rfl, by simp⟩
  | @cons c lc clauses labelled hc _ ih =>
    obtain ⟨hmap, hedges⟩ := ih
    obtain ⟨h₁, e₁⟩ := hat hc.tryStart
    obtain ⟨h₂, e₂⟩ := hat hc.tryEnd
    obtain ⟨h₃, e₃⟩ := hat hc.handlerStart
    obtain ⟨h₄, e₄⟩ := hat hc.handlerEnd
    constructor
    · rw [List.map_cons, List.map_cons, hmap]
      unfold bound boundBy
      rw [h₁, h₂, h₃, h₄, hc.flags, hc.classOrFilter]
    · refine List.forall_mem_cons.mpr ⟨?_, hedges⟩
      simp only [List.forall_mem_cons]
      exact ⟨e₁, e₂, e₃, e₄, by simp⟩

end Clauses

/-! ### Without an exit probe -/

section Shapes

variable {request : ProbeRequest} {body : MethodBody} {code : List (Instruction Offset)}
  {size : Offset} {d d' : Draft} {method enter : Token}

/-- A listing with more nodes, which are not part of the code yet. -/
def withNodes (l : Listing) (is : List (Instruction Label)) : Listing :=
  { l with nodes := l.nodes ++ (is.map later).toArray }

theorem getElem?_withNodes {l : Listing} (is : List (Instruction Label)) {k : NodeId} {n : Node}
    (h : l.nodes[k]? = some n) : (withNodes l is).nodes[k]? = some n := by
  rw [← h]
  exact Array.getElem?_append_left (Array.getElem?_eq_some_iff.mp h).1

theorem map_getElem?_withNodes (l : Listing) (is : List (Instruction Label)) :
    (List.range' l.nodes.size is.length).map ((withNodes l is).nodes[·]?) =
      (is.map later).map some := by
  rw [← List.length_map later]
  exact map_getElem?_append l.nodes (is.map later)

/-- Injecting the entry probe adds three nodes. -/
theorem insertEntry_eq_ok (hd : d.listing.nodes.size = code.length)
    (h : d.insertEntry method enter = .ok d') :
    d' = { d with
      listing := withNodes d.listing (entryCode method enter d.answerSlot)
      entry := List.range' code.length 3 } := by
  unfold insertEntry at h
  rw [addAll_run] at h
  cases h
  rw [hd]
  rfl

theorem known_entryCode (answerSlot : UInt16) :
    ∀ i ∈ entryCode method enter answerSlot, i.Known := by
  simp only [entryCode, List.forall_mem_cons]
  exact ⟨Instruction.known_of_info? Opcode.info?_ldc trivial,
    Instruction.known_of_info? Opcode.info?_call trivial,
    Instruction.known_storeLocal answerSlot, by simp⟩

theorem known_withNodes {l : Listing} (h : l.Known) {is : List (Instruction Label)}
    (his : ∀ i ∈ is, i.Known) : (withNodes l is).Known := by
  intro n hn
  rcases Array.mem_append.mp hn with hn | hn
  · exact h n hn
  · obtain ⟨i, hi, rfl⟩ := List.mem_map.mp (List.mem_toArray.mp hn)
    exact known_later (his i hi)

/-- A listing of mirrors says, of the node of an instruction, what the instruction
says. -/
theorem actOf_of_mirror {l : Listing} {i : Instruction Offset} {n : Node} {k : NodeId}
    (hn : l.nodes[k]? = some n) (h : l.Mirror i n)
    (hpositions : l.positionNodes = indexByOffset code) :
    l.actOf k = some (i.act.map (moveTo code)) := by
  rw [Listing.actOf_of_node hn, h.act, hpositions]
  rfl

theorem shape_of_entry (hopened : Opened request body code size d) (hcode : ∀ i ∈ code, i.Known)
    (h : d.insertEntry method enter = .ok d') :
    Shape body code size method enter none d'
      ⟨(List.range code.length).map ([·]), [], [], []⟩ := by
  obtain rfl := insertEntry_eq_ok hopened.mirrors.count h
  have hm := hopened.mirrors
  have hentry : (List.range' code.length 3).map
      ((withNodes d.listing (entryCode method enter d.answerSlot)).nodes[·]?) =
        ((entryCode method enter d.answerSlot).map later).map some := by
    rw [← hm.count]
    exact map_getElem?_withNodes d.listing _
  have hflat : ((List.range code.length).map ([·])).flatten = List.range code.length := by
    rw [← List.flatMap_def]
    exact List.flatMap_singleton' _
  have hmirror : ∀ (k : NodeId) (i : Instruction Offset), code[k]? = some i →
      ∃ n, (withNodes d.listing (entryCode method enter d.answerSlot)).nodes[k]? = some n ∧
        (withNodes d.listing (entryCode method enter d.answerSlot)).Mirror i n := fun k i hi => by
    obtain ⟨n, hn, hmirror⟩ := hm.node k i hi
    exact ⟨n, getElem?_withNodes _ hn, hmirror.keep rfl fun _ _ h => h⟩
  obtain ⟨hclauses, hedges⟩ := bound_of_labels hm
    (withNodes d.listing (entryCode method enter d.answerSlot)) .atEnd hopened.clauses
    fun label _ => by
      split
      · next h => exact h
      · rfl
  exact {
    order := by
      show d.listing.order = _
      rw [hm.order]
      exact hflat.symm.trans (List.append_nil _).symm
    nodup := by
      simp only [Parts.order, Parts.tail, List.append_nil, hflat]
      refine List.nodup_append.mpr ⟨List.nodup_range', List.nodup_range, ?_⟩
      rintro k hk k' hk' rfl
      exact Nat.not_lt_of_le (List.mem_range'_1.mp hk).1 (List.mem_range.mp hk')
    known := known_withNodes (hm.known hcode) (known_entryCode d.answerSlot)
    entry_acts := by
      rw [← entryCode_acts method enter d.answerSlot]
      exact map_actOf_of_later hentry
    catch_acts := rfl
    finally_acts := rfl
    epilogue_acts := rfl
    added := fun id hid => map_originOf_of_later hentry id (by simpa [Parts.tail] using hid)
    count := by simp
    group := fun k i hi => by
      obtain ⟨n, hn, hmirror⟩ := hmirror k i hi
      have hlt := (List.getElem?_eq_some_iff.mp hi).1
      refine ⟨[], by simp [hlt], ?_, ?_, by simp⟩
      · simp [imageActs, actOf_of_mirror hn hmirror hm.positionNodes]
      · rw [Listing.originOf_of_node hn, hmirror.origin]
    targets := hm.targets
    clauses := hclauses.trans (List.append_nil _).symm
    edges := hedges }

end Shapes

end Draft

end CilProbe
