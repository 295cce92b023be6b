/-
CilProbe/Proofs/Probe/Draft.lean

The edits of a draft, as equations.  Adding nodes and labels never fails, so those
edits are functions of the listing (`addAll_run`, `labelFor_run`).  Redirecting the
returns is a loop over the code; `mapM_redirectReturn` says what it does to each
node and that it touches nothing else.  Together they give the exit probe as one
equation, `wrap_run`: the code with its returns redirected, behind it the handlers
and the epilogue, and the labels for the end of the code moved to the first of them.
-/
import CilProbe.Probe.Draft
import CilProbe.Proofs.Cil.Injected
import CilProbe.Proofs.Code.Listing

namespace CilProbe

namespace Draft

variable {l l' : Listing}

/-! ### Edits as equations -/

/-- A node added later holds the long form of its instruction. -/
def later (i : Instruction Label) : Node := ⟨Listing.long i, none⟩

theorem add_run (i : Instruction Label) :
    (add i).run l = .ok (l.nodes.size, { l with nodes := l.nodes.push (later i) }) := rfl

/-- Instructions added at once get the next numbers. -/
theorem addAll_run (is : List (Instruction Label)) :
    (addAll is).run l = .ok (List.range' l.nodes.size is.length,
      { l with nodes := l.nodes ++ (is.map later).toArray }) := by
  unfold addAll
  induction is generalizing l with
  | nil =>
    show Except.ok ([], l) = .ok ([], { l with nodes := l.nodes ++ #[] })
    rw [Array.append_empty]
  | cons i is ih =>
    rw [List.mapM_cons]
    refine run_bind_eq_ok.mpr ⟨_, _, add_run i, run_bind_eq_ok.mpr ⟨_, _, ih, ?_⟩⟩
    rw [StateT.run_pure, Array.size_push, List.length_cons, List.range'_succ]
    simp [pure, Except.pure]

theorem labelFor_run (id : NodeId) :
    (labelFor id).run l =
      .ok (l.bindings.size, { l with bindings := l.bindings.push (.node id) }) := by
  show Except.ok (l.bindings.size, (l.addLabel .unbound).2.bind l.bindings.size id) = _
  unfold Listing.addLabel Listing.bind
  simp only [Array.push_eq_append]
  rw [Array.setIfInBounds_append_right (Nat.le_refl _), Nat.sub_self]
  rfl

theorem firstOf_eq_ok {ids : List NodeId} {id : NodeId} :
    (firstOf ids).run l = .ok (id, l') ↔ ids.head? = some id ∧ l = l' := by
  rcases ids with - | ⟨id', ids⟩
  · constructor
    · intro h
      cases h
    · rintro ⟨h, -⟩
      cases h
  · rw [firstOf, run_pure_eq_ok, List.head?_cons, Option.some.injEq]

/-! ### Returns -/

/-- What a return that goes to the epilogue instead consists of: the node itself
and those behind it. -/
def redirected (value : Option UInt16) (epilogue : Label) (n : Node) : Node × List Node :=
  if n.instruction.opcode = Opcode.ret then
    match value with
    | some slot =>
      let store : Instruction Label := .storeLocal slot
      ({ n with instruction := { store with offset := n.instruction.offset } },
        [later (.new Opcode.leave (.target epilogue))])
    | none => ({ n with instruction := ⟨n.instruction.offset, Opcode.leave, .target epilogue⟩ }, [])
  else (n, [])

theorem known_later {i : Instruction Label} (h : i.Known) : (later i).instruction.Known :=
  h.longForm

theorem known_leave (epilogue : Label) (offset : Offset) :
    (⟨offset, Opcode.leave, .target epilogue⟩ : Instruction Label).Known :=
  Instruction.known_of_info? Opcode.info?_leave trivial

/-- Redirecting a return gives known instructions. -/
theorem known_redirected (value : Option UInt16) (epilogue : Label) {n : Node}
    (h : n.instruction.Known) : (redirected value epilogue n).1.instruction.Known ∧
      ∀ m ∈ (redirected value epilogue n).2, m.instruction.Known := by
  unfold redirected
  split
  · rcases value with - | slot
    · exact ⟨known_leave epilogue _, by simp⟩
    · refine ⟨Instruction.known_storeLocal (τ := Label) slot, ?_⟩
      intro m hm
      obtain rfl := List.mem_singleton.mp hm
      exact known_later (known_leave epilogue 0)
  · exact ⟨h, by simp⟩

theorem setIfInBounds_self {nodes : Array Node} {id : NodeId} {n : Node} (h : nodes[id]? = some n) :
    nodes.setIfInBounds id n = nodes := by
  refine Array.ext_getElem? fun k => ?_
  rw [Array.getElem?_setIfInBounds]
  split
  · next heq =>
    subst heq
    have hlt := (Array.getElem?_eq_some_iff.mp h).1
    rw [if_pos hlt, h]
  · rfl

theorem replace_run {id : NodeId} {n : Node} (h : l.nodes[id]? = some n) (i : Instruction Label) :
    (replace id i).run l =
      .ok ((), { l with nodes := l.nodes.setIfInBounds id { n with instruction := i } }) := by
  have hset : l.setInstruction id i =
      .ok { l with nodes := l.nodes.setIfInBounds id { n with instruction := i } } := by
    rw [Listing.setInstruction, h]
  unfold replace
  simp only [StateT.run_bind, StateT.run_get, pure_bind, hset]
  rfl

theorem redirectReturn_run {id : NodeId} {n : Node} (h : l.nodes[id]? = some n)
    (value : Option UInt16) (epilogue : Label) :
    (redirectReturn value epilogue id).run l =
      .ok (id :: List.range' l.nodes.size (redirected value epilogue n).2.length,
        { l with nodes := l.nodes.setIfInBounds id (redirected value epilogue n).1 ++
                    (redirected value epilogue n).2.toArray }) := by
  have hnode : l.node id = .ok n := by rw [Listing.node, h]
  unfold redirectReturn redirected
  simp only [StateT.run_bind, StateT.run_get, pure_bind, hnode]
  show StateT.run (if n.instruction.opcode = Opcode.ret then _ else _) l = _
  by_cases hret : n.instruction.opcode = Opcode.ret
  · rw [if_pos hret, if_pos hret]
    rcases value with - | slot
    · rw [StateT.run_bind, replace_run h]
      simp only [List.length_nil, List.range'_zero, Array.append_empty]
      rfl
    · rw [StateT.run_bind, replace_run h]
      show Except.ok ([id, (l.nodes.setIfInBounds id _).size], _) = _
      rw [Array.size_setIfInBounds, ← Array.push_eq_append]
      rfl
  · rw [if_neg hret, if_neg hret, setIfInBounds_self h, Array.append_empty]
    rfl

theorem exists_node_of_redirectReturn {value : Option UInt16} {epilogue : Label} {id : NodeId}
    {out : List NodeId × Listing} (h : (redirectReturn value epilogue id).run l = .ok out) :
    ∃ n, l.nodes[id]? = some n := by
  rcases hnode : l.nodes[id]? with - | n
  · unfold redirectReturn at h
    simp only [StateT.run_bind, StateT.run_get, pure_bind, Listing.node, hnode] at h
    cases h
  · exact ⟨n, rfl⟩

/-- The nodes appended to others are found under the next numbers. -/
theorem map_getElem?_append (nodes : Array Node) (added : List Node) :
    (List.range' nodes.size added.length).map (fun k => (nodes ++ added.toArray)[k]?) =
      added.map some := by
  refine List.ext_getElem? fun k => ?_
  rw [List.getElem?_map, List.getElem?_map]
  by_cases hk : k < added.length
  · rw [List.getElem?_range' hk, Option.map_some, Array.getElem?_append, if_neg (by omega)]
    simp [hk]
  · rw [List.getElem?_eq_none (by simpa using hk), List.getElem?_eq_none (by simpa using hk)]
    rfl

/-- The nodes that stand for the node `id` of `l` after its return, if it is one, was
redirected. -/
def Redirected (l l' : Listing) (value : Option UInt16) (epilogue : Label) (id : NodeId)
    (group : List NodeId) : Prop :=
  ∃ n rest, l.nodes[id]? = some n ∧ group = id :: rest ∧
    l'.nodes[id]? = some (redirected value epilogue n).1 ∧
    rest.map (l'.nodes[·]?) = (redirected value epilogue n).2.map some

/-- The listing with one node made anew, and with the nodes that came with it. -/
def remade (l : Listing) (id : NodeId) (made : Node × List Node) : Listing :=
  { l with nodes := l.nodes.setIfInBounds id made.1 ++ made.2.toArray }

section Remade

variable {id : NodeId} {made : Node × List Node}

@[simp] theorem size_remade :
    (remade l id made).nodes.size = l.nodes.size + made.2.length := by
  simp [remade]

theorem getElem?_remade_of_ne {k : NodeId} (hk : k < l.nodes.size) (hne : k ≠ id) :
    (remade l id made).nodes[k]? = l.nodes[k]? := by
  rw [remade, Array.getElem?_append_left (by simpa using hk),
    Array.getElem?_setIfInBounds_ne (Ne.symm hne)]

theorem getElem?_remade_self (hid : id < l.nodes.size) :
    (remade l id made).nodes[id]? = some made.1 := by
  rw [remade, Array.getElem?_append_left (by simpa using hid),
    Array.getElem?_setIfInBounds_self_of_lt hid]

theorem map_getElem?_remade (l : Listing) (id : NodeId) (made : Node × List Node) :
    (List.range' l.nodes.size made.2.length).map ((remade l id made).nodes[·]?) =
      made.2.map some := by
  rw [← map_getElem?_append (l.nodes.setIfInBounds id made.1), Array.size_setIfInBounds]
  rfl

theorem known_remade (hl : l.Known) (hfirst : made.1.instruction.Known)
    (hmore : ∀ m ∈ made.2, m.instruction.Known) : (remade l id made).Known := by
  intro m hm
  rcases Array.mem_append.mp hm with hm | hm
  · rcases Array.mem_or_eq_of_mem_setIfInBounds hm with hm | rfl
    · exact hl m hm
    · exact hfirst
  · exact hmore m (List.mem_toArray.mp hm)

end Remade

/-- The listing `l'` is `l` with the returns among some nodes redirected: only these nodes
have changed, each has a group of nodes for it now, and what is new stands in a group. -/
structure RedirectedAll (l l' : Listing) (value : Option UInt16) (epilogue : Label)
    (ids : List NodeId) (groups : List (List NodeId)) : Prop where
  listing : l' = { l with nodes := l'.nodes }
  size_le : l.nodes.size ≤ l'.nodes.size
  keep : ∀ k < l.nodes.size, k ∉ ids → l'.nodes[k]? = l.nodes[k]?
  grouped : List.Forall₂ (Redirected l l' value epilogue) ids groups
  nodup : groups.flatten.Nodup
  fresh : ∀ k ∈ groups.flatten, k ∈ ids ∨ l.nodes.size ≤ k ∧ k < l'.nodes.size
  known : l.Known → l'.Known

theorem RedirectedAll.nil (value : Option UInt16) (epilogue : Label) :
    RedirectedAll l l value epilogue [] [] :=
  ⟨rfl, Nat.le_refl _, fun _ _ _ => rfl, .nil, .nil, by simp, id⟩

/-- One return is redirected, and then those among other nodes. -/
theorem RedirectedAll.cons {value : Option UInt16} {epilogue : Label} {id : NodeId}
    {ids : List NodeId} {groups : List (List NodeId)} {n : Node} (hn : l.nodes[id]? = some n)
    (hid : id ∉ ids) (hlt : ∀ id' ∈ ids, id' < l.nodes.size)
    (h : RedirectedAll (remade l id (redirected value epilogue n)) l' value epilogue ids groups) :
    RedirectedAll l l' value epilogue (id :: ids)
      ((id :: List.range' l.nodes.size (redirected value epilogue n).2.length) :: groups) := by
  set made := redirected value epilogue n
  have hidlt : id < l.nodes.size := (Array.getElem?_eq_some_iff.mp hn).1
  obtain ⟨hlisting, hle, hkeep, hgroups, hnodup, hfresh, hknown⟩ := h
  simp only [size_remade] at hle hkeep hfresh
  constructor
  case listing => exact hlisting
  case size_le => omega
  case keep =>
    intro k hk hmem
    obtain ⟨hne, hnot⟩ := not_or.mp fun h => hmem (List.mem_cons.mpr h)
    rw [hkeep k (by omega) hnot, getElem?_remade_of_ne hk hne]
  case grouped =>
    refine .cons ⟨n, _, hn, rfl, ?_, ?_⟩ ?_
    · rw [hkeep id (Nat.lt_of_lt_of_le hidlt (Nat.le_add_right _ _)) hid,
        getElem?_remade_self hidlt]
    · rw [← map_getElem?_remade l id made]
      refine List.map_congr_left fun k hk => ?_
      obtain ⟨hlow, hhigh⟩ := List.mem_range'_1.mp hk
      exact hkeep k hhigh fun hk' => Nat.not_lt_of_le hlow (hlt k hk')
    · -- what the first step did is not seen at the nodes that are left
      have hleft := (List.forall₂_and_left _ _).mpr ⟨fun id' (hid' : id' ∈ ids) => hid', hgroups⟩
      refine hleft.imp ?_
      rintro id' group ⟨hid', n', rest, hn', hgroup, hhead, hbehind⟩
      have hne : id' ≠ id := fun heq => hid (heq ▸ hid')
      exact ⟨n', rest, (getElem?_remade_of_ne (hlt id' hid') hne).symm.trans hn', hgroup, hhead,
        hbehind⟩
  case nodup =>
    -- what comes later is either one of the other nodes or new, and behind what came first
    have hlater : ∀ k ∈ groups.flatten, k ≠ id ∧ k ∉ List.range' l.nodes.size made.2.length := by
      intro k hk
      rw [List.mem_range'_1]
      rcases hfresh k hk with hk' | ⟨hk', -⟩
      · exact ⟨fun heq => hid (heq ▸ hk'), fun h => Nat.not_lt_of_le h.1 (hlt k hk')⟩
      · have hle' : l.nodes.size ≤ k := Nat.le_trans (Nat.le_add_right _ _) hk'
        exact ⟨fun heq => Nat.not_lt_of_le hle' (heq ▸ hidlt), fun h => Nat.not_lt_of_le hk' h.2⟩
    rw [List.flatten_cons, List.cons_append, List.nodup_cons, List.nodup_append]
    refine ⟨?_, List.nodup_range', hnodup, ?_⟩
    · rw [List.mem_append, not_or]
      exact ⟨fun h => Nat.not_lt_of_le (List.mem_range'_1.mp h).1 hidlt,
        fun h => (hlater id h).1 rfl⟩
    · rintro k hk k' hk' rfl
      exact (hlater k hk').2 hk
  case fresh =>
    intro k hk
    rw [List.flatten_cons, List.cons_append, List.mem_cons, List.mem_append,
      List.mem_range'_1] at hk
    rcases hk with rfl | ⟨hlow, hhigh⟩ | hk
    · exact .inl List.mem_cons_self
    · exact .inr ⟨hlow, Nat.lt_of_lt_of_le hhigh hle⟩
    · rcases hfresh k hk with hk' | ⟨hlow, hhigh⟩
      · exact .inl (List.mem_cons_of_mem _ hk')
      · exact .inr ⟨Nat.le_trans (Nat.le_add_right _ _) hlow, hhigh⟩
  case known =>
    intro hl
    obtain ⟨hfirst, hmore⟩ := known_redirected value epilogue (hl n (Array.mem_of_getElem? hn))
    exact hknown (known_remade hl hfirst hmore)

/-- Redirecting the returns among some nodes changes these nodes only, and the ones
it adds stand with the return they belong to. -/
theorem mapM_redirectReturn {value : Option UInt16} {epilogue : Label} {ids : List NodeId}
    {groups : List (List NodeId)} (hids : ids.Nodup) (hlt : ∀ id ∈ ids, id < l.nodes.size)
    (h : (ids.mapM (redirectReturn value epilogue)).run l = .ok (groups, l')) :
    RedirectedAll l l' value epilogue ids groups := by
  induction ids generalizing l groups with
  | nil =>
    obtain ⟨rfl, rfl⟩ := run_pure_eq_ok.mp h
    exact .nil value epilogue
  | cons id ids ih =>
    rw [List.mapM_cons] at h
    obtain ⟨group, l₁, hgroup, h⟩ := run_bind_eq_ok.mp h
    obtain ⟨groups', l₂, hgroups, h⟩ := run_bind_eq_ok.mp h
    obtain ⟨rfl, rfl⟩ := run_pure_eq_ok.mp h
    obtain ⟨n, hn⟩ := exists_node_of_redirectReturn hgroup
    rw [redirectReturn_run hn] at hgroup
    cases hgroup
    obtain ⟨hid, hids⟩ := List.nodup_cons.mp hids
    obtain ⟨-, hlt⟩ := List.forall_mem_cons.mp hlt
    refine .cons hn hid hlt (ih hids (fun id' hid' => ?_) hgroups)
    rw [size_remade]
    exact Nat.lt_of_lt_of_le (hlt id' hid') (Nat.le_add_right _ _)

/-! ### The exit probe -/

/-- The instructions of the catch handler, where exceptions are observed. -/
def catchPart (slots : ExitSlots) (exceptionType : Option Token) : List (Instruction Label) :=
  if exceptionType.isSome then catchCode slots else []

/-- What is behind the code that was wrapped. -/
def tailCode (slots : ExitSlots) (answerSlot : UInt16) (exit : Token)
    (exceptionType : Option Token) : List (Instruction Label) :=
  catchPart slots exceptionType ++ finallyCode slots answerSlot exit ++ epilogueCode slots

/-- Where the handlers and the epilogue begin behind `start` nodes. -/
def finallyNode (start : NodeId) (slots : ExitSlots) (exceptionType : Option Token) : NodeId :=
  start + (catchPart slots exceptionType).length

/-- See `finallyNode`. -/
def epilogueNode (start : NodeId) (slots : ExitSlots) (answerSlot : UInt16) (exit : Token)
    (exceptionType : Option Token) : NodeId :=
  finallyNode start slots exceptionType + (finallyCode slots answerSlot exit).length

/-- The listing after the exit probe was added behind the nodes of `l₂`, whose first
one is `first` and whose returns are redirected; `labels` are the labels from before. -/
def wrappedListing (l₂ : Listing) (labels : Array Binding) (first : NodeId) (slots : ExitSlots)
    (answerSlot : UInt16) (exit : Token) (exceptionType : Option Token) : Listing :=
  let start := l₂.nodes.size
  let finally_ := finallyNode start slots exceptionType
  let epilogue := epilogueNode start slots answerSlot exit exceptionType
  { l₂ with
    nodes := l₂.nodes ++ ((tailCode slots answerSlot exit exceptionType).map later).toArray
    bindings := labels.map (fun b => if b = .atEnd then .node start else b) ++
      #[.node epilogue, .node first, .node finally_, .node epilogue] ++
        if exceptionType.isSome then #[.node start] else #[] }

/-- The order of its nodes. -/
def wrappedOrder (groups : List (List NodeId)) (start : NodeId) (slots : ExitSlots)
    (answerSlot : UInt16) (exit : Token) (exceptionType : Option Token) : List NodeId :=
  let finally_ := finallyNode start slots exceptionType
  let epilogue := epilogueNode start slots answerSlot exit exceptionType
  groups.flatten ++ List.range' start (catchPart slots exceptionType).length ++
    List.range' finally_ (finallyCode slots answerSlot exit).length ++
      List.range' epilogue (epilogueCode slots).length

/-- The clauses of the exit probe; `label` is the label of the epilogue, and those of
the ranges come after it. -/
def wrappedClauses (label : Label) (exceptionType : Option Token) : List LabelledClause :=
  (exceptionType.map fun type =>
    { flags := .catch_, classOrFilter := type.value, tryStart := label + 1, tryEnd := label + 4,
      handlerStart := label + 4, handlerEnd := label + 2 : LabelledClause }).toList ++
    [{ flags := .finallyOnly, classOrFilter := 0, tryStart := label + 1, tryEnd := label + 2,
       handlerStart := label + 2, handlerEnd := label + 3 }]

theorem ok_bind {ε α β : Type} (a : α) (f : α → Except ε β) : (Except.ok a >>= f) = f a := rfl

theorem newLabel_run :
    Listing.newLabel.run l = .ok (l.bindings.size, (l.addLabel .unbound).2) := rfl

theorem firstOf_run {ids : List NodeId} {id : NodeId} (h : ids.head? = some id) :
    (firstOf ids).run l = .ok (id, l) := by
  rcases ids with - | ⟨id', ids⟩
  · cases h
  · cases h
    rfl

theorem head?_range' {start count : Nat} (h : 0 < count) :
    (List.range' start count).head? = some start := by
  rw [List.head?_range', if_neg (Nat.ne_of_gt h)]

theorem firstOf_range' {start count : Nat} (h : 0 < count) :
    (firstOf (List.range' start count)).run l = .ok (start, l) :=
  firstOf_run (head?_range' h)

theorem firstOf_range'_append {start count : Nat} (h : 0 < count) (more : List NodeId) :
    (firstOf (List.range' start count ++ more)).run l = .ok (start, l) :=
  firstOf_run (by rw [List.head?_append, head?_range' h]; rfl)

/-- Binding the label of the epilogue, and the labels for the end of the code. -/
theorem rebound (labels : Array Binding) (first epilogue start : NodeId) :
    (((labels.push .unbound).push (.node first)).setIfInBounds labels.size (.node epilogue)).map
        (fun b => if b = .atEnd then .node start else b) =
      labels.map (fun b => if b = .atEnd then .node start else b) ++
        #[.node epilogue, .node first] := by
  simp only [Array.push_eq_append, Array.append_assoc]
  rw [Array.setIfInBounds_append_right (Nat.le_refl _), Nat.sub_self, Array.map_append]
  simp

theorem wrap_run {l₂ : Listing} {first : NodeId} {groups : List (List NodeId)}
    (slots : ExitSlots) (answerSlot : UInt16) (exit : Token) (exceptionType : Option Token)
    (hfirst : l.order.head? = some first)
    (hgroups : (l.order.mapM (redirectReturn slots.value l.bindings.size)).run
      (l.addLabel .unbound).2 = .ok (groups, l₂))
    (hl₂ : l₂.bindings = l.bindings.push .unbound) :
    (wrap slots answerSlot exit exceptionType).run l =
      .ok ((wrappedOrder groups l₂.nodes.size slots answerSlot exit exceptionType,
          wrappedClauses l.bindings.size exceptionType),
        wrappedListing l₂ l.bindings first slots answerSlot exit exceptionType) := by
  have hfinally : 0 < (finallyCode slots answerSlot exit).length := by
    simp [finallyCode]
  have hepilogue : 0 < (epilogueCode slots).length := by
    simp [epilogueCode]
  have hcatch : 0 < (catchCode slots).length := by
    simp [catchCode]
  unfold wrap
  rcases exceptionType with - | type
  · simp only [StateT.run_bind, StateT.run_get, StateT.run_modify, StateT.run_pure, pure_bind,
      ok_bind, firstOf_run hfirst, newLabel_run, hgroups, labelFor_run, addAll_run,
      firstOf_range' hfinally, firstOf_range' hepilogue, Option.isSome_none, Bool.false_eq_true,
      if_false, List.nil_append, Listing.bind, Listing.rebindEnd, hl₂, rebound]
    simp [wrappedOrder, wrappedClauses, wrappedListing, finallyNode, epilogueNode, catchPart,
      tailCode, pure, Except.pure]
  · simp only [StateT.run_bind, StateT.run_get, StateT.run_modify, StateT.run_pure, pure_bind,
      ok_bind, firstOf_run hfirst, newLabel_run, hgroups, labelFor_run, addAll_run,
      firstOf_range' hfinally, firstOf_range' hepilogue, firstOf_range'_append hcatch,
      Option.isSome_some, if_true, Listing.bind, Listing.rebindEnd, hl₂, rebound]
    simp [wrappedOrder, wrappedClauses, wrappedListing, finallyNode, epilogueNode, catchPart,
      tailCode, pure, Except.pure, Nat.add_assoc]

/-- A wrapping that succeeds found a first node and redirected the returns. -/
theorem exists_groups_of_wrap {slots : ExitSlots} {answerSlot : UInt16} {exit : Token}
    {exceptionType : Option Token} {out : (List NodeId × List LabelledClause) × Listing}
    (h : (wrap slots answerSlot exit exceptionType).run l = .ok out) :
    ∃ first groups l₂, l.order.head? = some first ∧
      (l.order.mapM (redirectReturn slots.value l.bindings.size)).run (l.addLabel .unbound).2 =
        .ok (groups, l₂) := by
  unfold wrap at h
  simp only [StateT.run_bind, StateT.run_get, pure_bind] at h
  obtain ⟨⟨first, _⟩, hfirst, h⟩ := bind_eq_ok.mp h
  obtain ⟨hhead, rfl⟩ := firstOf_eq_ok.mp hfirst
  obtain ⟨⟨label, _⟩, hlabel, h⟩ := bind_eq_ok.mp h
  cases hlabel
  obtain ⟨⟨groups, l₂⟩, hgroups, -⟩ := bind_eq_ok.mp h
  exact ⟨first, groups, l₂, hhead, hgroups⟩

end Draft

end CilProbe
